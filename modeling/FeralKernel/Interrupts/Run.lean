import FeralKernel.Interrupts.Handlers

/-!
# Interrupts, one after the other

A started kernel serves what the devices ask for, and the devices go on meanwhile.  What is seen of
it is a run of a session: the keys that have been served, in the order in which they came, and the
timer.

Other code that runs between the interrupts is not part of this.
-/

namespace FeralKernel

open Verif.Program Verif.Bytes

namespace Session

/-- An interrupt that is served. -/
def take (u : Session) : Arrival → Session
  | .tick => u.tick
  | .key code => u.press code
  | .device _ => u

/-- The terminal depends on the keys alone. -/
theorem terminal_foldl (served : List Arrival) : ∀ u : Session,
    (served.foldl take u).terminal = (Devices.codes served).foldl Terminal.press u.terminal := by
  induction served with
  | nil =>
    intro u
    rfl
  | cons a served ih =>
    intro u
    rw [List.foldl_cons, ih, Devices.codes_cons, List.foldl_append]
    cases a <;> rfl

/-- The count of the timer stays below sixteen. -/
theorem timer_foldl (served : List Arrival) : ∀ u : Session, u.timer.toNat < 16 →
    (served.foldl take u).timer.toNat < 16 := by
  induction served with
  | nil =>
    intro u hu
    exact hu
  | cons a served ih =>
    intro u hu
    rw [List.foldl_cons]
    refine ih _ ?_
    cases a with
    | tick =>
      show (if u.timer + 1 = 16 then (0 : BitVec 8) else u.timer + 1).toNat < 16
      by_cases hround : u.timer + 1 = 16
      · rw [if_pos hround]
        decide
      · have hne : (u.timer + 1).toNat ≠ 16 := fun h => hround (BitVec.eq_of_toNat_eq h)
        have hnat : (u.timer + 1).toNat = u.timer.toNat + 1 := by
          rw [BitVec.toNat_add, show (1 : BitVec 8).toNat = 1 from rfl]
          omega
        rw [if_neg hround]
        omega
    | key code => exact hu
    | device line => exact hu

end Session

namespace Interrupts

/-- A started kernel that shows the session. -/
structure Live (image : KernelImage) (s : Machine KernelStatics) (u : Session) : Prop
    extends Running image s u.terminal.screen where
  keyboard : s.statics.keyboard = u.terminal.keyboard
  timer : s.statics.screenTimer = u.timer

/-- The bytes are those of keys that have a name. -/
def Named (codes : List (BitVec 8)) : Prop :=
  ∀ code ∈ codes, (code &&& 0x7F).toNat < ps2Names.length

section Cycle

variable {image : KernelImage} {s t : Machine KernelStatics} {u u' : Session} {d : Devices}
  {f g : Devices → Devices}

/-- The kernel with other devices, as long as they are set as before. -/
theorem Live.onDevices (h : Live image s u) (hset : (g s.statics.devices).settings = started) :
    Live image (s.onDevices g) u :=
  ⟨⟨⟨h.tables.gdtr, h.tables.idtr, h.tables.segments, h.tables.gates, h.tables.last⟩, h.mapped,
    h.texts, ⟨h.shows.shows, h.shows.front⟩, hset, h.flag⟩, h.keyboard, h.timer⟩

/-- A handler that gives the devices back as they were set before the interrupt. -/
theorem Live.handled (h : Live image s u) (hl : image.Laid)
    (hlayout : TableLayout image.p4Table image.p3Table image.p2Table)
    (hh : Handled image u' f (s.onDevices g) t)
    (hset : (f (g s.statics.devices)).settings = started) : Live image t u' := by
  have htables : Tables image (s.onDevices g).mem (s.onDevices g).statics :=
    ⟨h.tables.gdtr, h.tables.idtr, h.tables.segments, h.tables.gates, h.tables.last⟩
  refine ⟨⟨hh.tables hl htables, ?_, hh.shown.texts, hh.shown.screen, ?_, ?_⟩, hh.shown.keyboard,
    hh.shown.timer⟩
  · exact h.mapped.congr (keepsBootTables hl hlayout hh.memory (by decide) (by decide) (by decide))
  · rw [hh.devices]
    exact hset
  · rw [hh.statics]
    exact h.flag

/-- An interrupt is delivered to a started kernel. -/
theorem Live.deliver (h : Live image s u) (hl : image.Laid)
    (hlayout : TableLayout image.p4Table image.p3Table image.p2Table) {v : BitVec 8}
    (hv : v ≠ 0xFF) (hstop : ¬ (handlerOf v).Stops) {c : BitVec 8}
    (hcode : handlerOf v = .ps2KeyboardHandler → (g s.statics.devices).advance.takeKey.1 = c ∧
      (c &&& 0x7F).toNat < ps2Names.length)
    (hset : ((handlerOf v).drive (g s.statics.devices)).settings = started) :
    Returns (Interrupts.deliver image v false) (s.onDevices g) fun _ t =>
      Live image t ((handlerOf v).serve c u) ∧ image.ChangedIn handlerAreas s.mem t.mem ∧
      t.statics.devices = (handlerOf v).drive (g s.statics.devices) := by
  have htables : Tables image (s.onDevices g).mem (s.onDevices g).statics :=
    ⟨h.tables.gdtr, h.tables.idtr, h.tables.segments, h.tables.gates, h.tables.last⟩
  have hshown : Shown image (s.onDevices g) u :=
    ⟨h.texts, ⟨h.shows.shows, h.shows.front⟩, h.keyboard, h.timer⟩
  refine (deliver_spec hl htables hshown hv hstop hcode).mono fun _ t hh => ?_
  exact ⟨h.handled hl hlayout hh hset, hh.memory, hh.devices⟩

/-- From `s` to `t` these interrupts have been served, one after the other. -/
structure Serves (image : KernelImage) (u : Session) (served : List Arrival)
    (s t : Machine KernelStatics) : Prop where
  live : Live image t (served.foldl Session.take u)
  memory : image.ChangedIn handlerAreas s.mem t.mem
  untaken : Devices.codes served ++ t.statics.devices.untaken = s.statics.devices.untaken

theorem Serves.refl (h : Live image s u) : Serves image u [] s s :=
  ⟨h, KernelImage.ChangedIn.refl, List.nil_append _⟩

theorem Serves.trans {w : Machine KernelStatics} {served served' : List Arrival}
    (h : Serves image u served s t) (h' : Serves image (served.foldl Session.take u) served' t w) :
    Serves image u (served ++ served') s w := by
  refine ⟨?_, h.memory.trans h'.memory, ?_⟩
  · rw [List.foldl_append]
    exact h'.live
  · rw [Devices.codes, List.filterMap_append, List.append_assoc, ← h.untaken, ← h'.untaken]
    rfl

/-- What a started controller asks for. -/
theorem interrupt_started (hset : d.settings = started) : d.interrupt =
    if d.master.request.getLsbD 0 = true then some (0x20, d.accepted 0)
    else if d.master.request.getLsbD 1 = true then some (0x21, d.accepted 1)
    else none := by
  have hmaster : d.master.settings = started.master := congrArg Devices.Settings.master hset
  have hbase : d.master.base = 0x20 := congrArg Pic.base hmaster
  have hmask : d.master.mask = 0xFC := congrArg Pic.mask hmaster
  have hservice : d.master.service = 0 := congrArg Pic.service hmaster
  have hawaiting : d.master.awaiting = [] := congrArg Pic.awaiting hmaster
  rw [Devices.interrupt_timer_keyboard ⟨hawaiting, hmask, hservice⟩, hbase]
  rfl

/-- A handler of a started kernel ends what the controller began. -/
theorem settings_ended (hset : d.settings = started) (i : Fin 8) :
    ((d.accepted i).outAll [(0x20, 0x20)]).settings = started := by
  have hmaster : d.master.settings = started.master := congrArg Devices.Settings.master hset
  rw [Devices.settings_accepted (congrArg Pic.service hmaster), hset]

theorem end_starts_nothing : ∀ w ∈ [((0x20 : BitVec 16), (0x20 : BitVec 8))],
    w.1 ≠ 0x20 ∨ w.2 &&& 0x10 = 0 := by
  intro w hw
  rw [List.mem_singleton] at hw
  subst hw
  exact .inr rfl

theorem interruptCycle_cases (h : Live image s u) {Q : Unit → Machine KernelStatics → Prop}
    (htick : s.statics.devices.advance.master.request.getLsbD 0 = true →
      Returns (deliver image 0x20 false) (s.onDevices fun d => d.advance.accepted 0) Q)
    (hkey : s.statics.devices.advance.master.request.getLsbD 0 = false →
      s.statics.devices.advance.master.request.getLsbD 1 = true →
      Returns (deliver image 0x21 false) (s.onDevices fun d => d.advance.accepted 1) Q)
    (hnone : s.statics.devices.advance.master.request.getLsbD 0 = false →
      s.statics.devices.advance.master.request.getLsbD 1 = false →
      Q () (s.onDevices Devices.advance)) :
    Returns (interruptCycle image) s Q := by
  have hset : s.statics.devices.advance.settings = started := by
    rw [Devices.settings_advance]
    exact h.settings
  rw [interruptCycle]
  refine Returns.bind (P := fun _ t => t = s.onDevices Devices.advance)
    (returns_modifyStatics.mpr rfl) fun _ t ht => ?_
  have hflag : t.statics.interruptFlag = true := by
    rw [ht]
    exact h.flag
  have hdevices : t.statics.devices = s.statics.devices.advance := by
    rw [ht]
    rfl
  rw [returns_bind, returns_getStatics, onlyIf, if_pos hflag, hdevices, interrupt_started hset]
  by_cases h0 : s.statics.devices.advance.master.request.getLsbD 0 = true
  · rw [if_pos h0]
    simp only [returns_bind, returns_setStatics]
    rw [ht]
    exact htick h0
  · rw [if_neg h0]
    by_cases h1 : s.statics.devices.advance.master.request.getLsbD 1 = true
    · rw [if_pos h1]
      simp only [returns_bind, returns_setStatics]
      rw [ht]
      exact hkey (Bool.eq_false_iff.mpr h0) h1
    · rw [if_neg h1, ht]
      simp only [returns_pure]
      exact hnone (Bool.eq_false_iff.mpr h0) (Bool.eq_false_iff.mpr h1)

/-- The timer is served. -/
theorem deliver_tick (h : Live image s u) (hl : image.Laid)
    (hlayout : TableLayout image.p4Table image.p3Table image.p2Table) :
    Returns (deliver image 0x20 false) (s.onDevices fun d => d.advance.accepted 0) fun _ t =>
      Serves image u [.tick] s t ∧
      t.statics.devices = (s.statics.devices.advance.accepted 0).outAll [(0x20, 0x20)] := by
  have hhandler : handlerOf 0x20 = .pitHandler := by decide
  have hset : s.statics.devices.advance.settings = started := by
    rw [Devices.settings_advance]
    exact h.settings
  refine (h.deliver hl hlayout (v := 0x20) (c := 0) (by decide) (by decide)
    (fun hne => absurd hne (by decide)) (by rw [hhandler]; exact settings_ended hset 0)).mono
    fun _ t ht => ?_
  rw [hhandler] at ht
  obtain ⟨hlive, hm, hdevices⟩ := ht
  refine ⟨⟨hlive, hm, ?_⟩, hdevices⟩
  rw [hdevices]
  exact (Devices.outAll_untaken _ _).trans (Devices.advance_untaken s.statics.devices)

/-- A byte that waits is served. -/
theorem deliver_key (h : Live image s u) (hl : image.Laid)
    (hlayout : TableLayout image.p4Table image.p3Table image.p2Table) {code : BitVec 8}
    (hwaits : (s.statics.devices.advance.accepted 1).Waits code)
    (hnamed : Named s.statics.devices.untaken) :
    Returns (deliver image 0x21 false) (s.onDevices fun d => d.advance.accepted 1) fun _ t =>
      Serves image u [.key code] s t ∧ t.statics.devices =
        (s.statics.devices.advance.accepted 1).advance.takeKey.2.outAll [(0x20, 0x20)] := by
  have hhandler : handlerOf 0x21 = .ps2KeyboardHandler := by decide
  have hset : s.statics.devices.advance.settings = started := by
    rw [Devices.settings_advance]
    exact h.settings
  obtain ⟨htaken, -, huntaken, -, htakenset⟩ := hwaits.advance.takeKey
  have hall : s.statics.devices.untaken =
      code :: (s.statics.devices.advance.accepted 1).advance.takeKey.2.untaken := by
    rw [← huntaken, Devices.advance_untaken]
    exact (Devices.advance_untaken s.statics.devices).symm
  have hname : (code &&& 0x7F).toNat < ps2Names.length := by
    rw [hall] at hnamed
    exact hnamed code (List.mem_cons_self ..)
  have hended : ((Handler.ps2KeyboardHandler).drive
      (s.statics.devices.advance.accepted 1)).settings = started := by
    rw [← settings_ended hset 1]
    show ((s.statics.devices.advance.accepted 1).advance.takeKey.2.outAll _).settings = _
    rw [Devices.settings_outAll, Devices.settings_outAll, htakenset, Devices.settings_advance]
    rfl
  refine (h.deliver hl hlayout (v := 0x21) (by decide) (by decide)
    (fun _ => ⟨htaken, hname⟩) (by rw [hhandler]; exact hended)).mono fun _ t ht => ?_
  rw [hhandler] at ht
  obtain ⟨hlive, hm, hdevices⟩ := ht
  refine ⟨⟨hlive, hm, ?_⟩, hdevices⟩
  rw [hdevices, hall]
  exact congrArg (code :: ·) (Devices.outAll_untaken _ _)

/-- A cycle while the keyboard is announced: there is less left to be served, or nothing. -/
theorem interruptCycle_signals (h : Live image s u) (hl : image.Laid)
    (hlayout : TableLayout image.p4Table image.p3Table image.p2Table)
    (hsignals : s.statics.devices.Signals) (hnamed : Named s.statics.devices.untaken) :
    Returns (interruptCycle image) s fun _ t => (∃ served, Serves image u served s t) ∧
      t.statics.devices.Signals ∧
      t.statics.devices.pending ≤ s.statics.devices.pending - 1 := by
  have hsignals' := hsignals.advance
  obtain ⟨hpending, hburst⟩ := Devices.advance_pending s.statics.devices
  refine interruptCycle_cases h (fun h0 => ?_) (fun _ h1 => ?_) (fun h0 h1 => ?_)
  · refine (deliver_tick h hl hlayout).mono fun _ t ht => ?_
    obtain ⟨hserves, hdevices⟩ := ht
    have hless := Devices.pending_accepted h0
    have hended := Devices.outAll_pending [(0x20, 0x20)]
      (s.statics.devices.advance.accepted 0)
    refine ⟨⟨_, hserves⟩, ?_, ?_⟩
    · rw [hdevices]
      exact hsignals'.accepted.outAll end_starts_nothing
    · rw [hdevices]
      omega
  · obtain ⟨code, hwaits⟩ := hsignals'.waits h1
    refine (deliver_key h hl hlayout hwaits hnamed).mono fun _ t ht => ?_
    obtain ⟨hserves, hdevices⟩ := ht
    have hless := hwaits.advance.takeKey_pending
    have hburst' := (Devices.advance_pending (s.statics.devices.advance.accepted 1)).1
    have hended := Devices.outAll_pending [(0x20, 0x20)]
      (s.statics.devices.advance.accepted 1).advance.takeKey.2
    have hsame : (s.statics.devices.advance.accepted 1).pending =
        s.statics.devices.advance.pending := by
      have hline : (s.statics.devices.advance.accepted 1).master.request.getLsbD 0 =
          s.statics.devices.advance.master.request.getLsbD 0 :=
        Pic.getLsbD_accept (by decide : (0 : Fin 8) ≠ 1)
      rw [Devices.pending, Devices.pending, hline]
      rfl
    refine ⟨⟨_, hserves⟩, ?_, ?_⟩
    · rw [hdevices]
      exact hwaits.advance.takeKey.2.1.outAll end_starts_nothing
    · rw [hdevices]
      omega
  · have hlive : Live image (s.onDevices Devices.advance) u :=
      h.onDevices (by rw [Devices.settings_advance]; exact h.settings)
    refine ⟨⟨[], ⟨hlive, KernelImage.ChangedIn.refl, Devices.advance_untaken _⟩⟩, hsignals', ?_⟩
    -- either a burst has gone by, or nothing is left at all
    show s.statics.devices.advance.pending ≤ _
    by_cases hfuture : s.statics.devices.future = []
    · have hsame : s.statics.devices.advance = s.statics.devices := by
        rw [Devices.advance, hfuture]
      have hkeys : s.statics.devices.advance.keys = [] := by
        by_contra hne
        have hup := hsignals'.mpr hne
        rw [h1] at hup
        cases hup
      rw [hsame] at h0 hkeys ⊢
      rw [Devices.pending, Devices.untaken, hkeys, hfuture, h0]
      exact Nat.zero_le _
    · have hless := hburst hfuture
      omega

/-- While a byte waits that is not announced, no key is served. -/
theorem interruptCycle_waits (h : Live image s u) (hl : image.Laid)
    (hlayout : TableLayout image.p4Table image.p3Table image.p2Table) {code : BitVec 8}
    (hwaits : s.statics.devices.Waits code) :
    Returns (interruptCycle image) s fun _ t =>
      (∃ served, Serves image u served s t ∧ Devices.codes served = []) ∧
      t.statics.devices.Waits code := by
  have hwaits' := hwaits.advance
  refine interruptCycle_cases h (fun _ => ?_) (fun _ h1 => ?_) (fun _ _ => ?_)
  · refine (deliver_tick h hl hlayout).mono fun _ t ht => ?_
    obtain ⟨hserves, hdevices⟩ := ht
    refine ⟨⟨_, hserves, rfl⟩, ?_⟩
    rw [hdevices]
    exact hwaits'.accepted.outAll end_starts_nothing
  · rw [hwaits'.2] at h1
    cases h1
  · have hlive : Live image (s.onDevices Devices.advance) u :=
      h.onDevices (by rw [Devices.settings_advance]; exact h.settings)
    exact ⟨⟨[], ⟨hlive, KernelImage.ChangedIn.refl, Devices.advance_untaken _⟩, rfl⟩, hwaits'⟩

/-! ## Runs -/

/-- `n` cycles. -/
def interruptCycles (image : KernelImage) (n : Nat) : Kern KernelStatics Unit :=
  forRange (fun _ _ => interruptCycle image) n 0 ()

/-- Every run of a started kernel is a run of the session, in which the keys are served in the
order in which they come, none of them twice or not at all, and after enough cycles all of them have
been served. -/
theorem interruptCycles_serve (h : Live image s u) (hl : image.Laid)
    (hlayout : TableLayout image.p4Table image.p3Table image.p2Table)
    (hsignals : s.statics.devices.Signals) (hnamed : Named s.statics.devices.untaken) (n : Nat) :
    Returns (interruptCycles image n) s fun _ t => ∃ served, Serves image u served s t ∧
      t.statics.devices.Signals ∧
      (s.statics.devices.pending ≤ n → Devices.codes served = s.statics.devices.untaken) := by
  refine (returns_forRange (fun i _ t => (∃ served, Serves image u served s t) ∧
    t.statics.devices.Signals ∧ t.statics.devices.pending ≤ s.statics.devices.pending - i) n
    (fun i _ t _ hI => ?_) n 0 () s (Nat.zero_add n)
    ⟨⟨[], .refl h⟩, hsignals, Nat.le_refl _⟩).mono fun _ t ht => ?_
  · obtain ⟨⟨served, hserved⟩, hsig, hpending⟩ := hI
    have hrest : Named t.statics.devices.untaken := by
      intro code hcode
      refine hnamed code ?_
      rw [← hserved.untaken]
      exact List.mem_append_right _ hcode
    refine (interruptCycle_signals hserved.live hl hlayout hsig hrest).mono fun _ w hw => ?_
    obtain ⟨⟨served', hserved'⟩, hsig', hpending'⟩ := hw
    exact ⟨⟨_, hserved.trans hserved'⟩, hsig', by omega⟩
  · obtain ⟨⟨served, hserved⟩, hsig, hpending⟩ := ht
    refine ⟨served, hserved, hsig, fun hn => ?_⟩
    have hlength : t.statics.devices.untaken.length ≤ t.statics.devices.pending := by
      rw [Devices.pending]
      omega
    have hnone : t.statics.devices.untaken = [] := List.length_eq_zero_iff.mp (by omega)
    rw [← hserved.untaken, hnone, List.append_nil]

/-- When the announcement of the first byte has been lost, no key is ever served. -/
theorem interruptCycles_wait (h : Live image s u) (hl : image.Laid)
    (hlayout : TableLayout image.p4Table image.p3Table image.p2Table) {code : BitVec 8}
    (hwaits : s.statics.devices.Waits code) (n : Nat) :
    Returns (interruptCycles image n) s fun _ t => ∃ served, Serves image u served s t ∧
      Devices.codes served = [] := by
  refine (returns_forRange (fun _ _ t => (∃ served, Serves image u served s t ∧
    Devices.codes served = []) ∧ t.statics.devices.Waits code) n (fun i _ t _ hI => ?_) n 0 () s
    (Nat.zero_add n) ⟨⟨[], .refl h, rfl⟩, hwaits⟩).mono fun _ t ht => ht.1
  obtain ⟨⟨served, hserved, hnone⟩, hwait⟩ := hI
  refine (interruptCycle_waits hserved.live hl hlayout hwait).mono fun _ w hw => ?_
  obtain ⟨⟨served', hserved', hnone'⟩, hwait'⟩ := hw
  refine ⟨⟨_, hserved.trans hserved', ?_⟩, hwait'⟩
  rw [Devices.codes, List.filterMap_append]
  exact congrArg₂ (· ++ ·) hnone hnone'

/-- The first processor is started and then serves interrupts. -/
theorem startup_run {initialP4Table : Ptr} {scr : Screen}
    (h : Loaded image initialP4Table s scr) (hnamed : Named s.statics.devices.untaken) (n : Nat) :
    Returns (do
      kiStartupProcessorMachineDependent image initialP4Table 0
      interruptCycles image n) s fun _ t => ∃ served,
      Live image t (served.foldl Session.take
        { timer := s.statics.screenTimer
          terminal :=
            { keyboard := s.statics.keyboard
              screen := (chars readyMessage).foldl Screen.type scr } }) ∧
      Devices.codes served ++ t.statics.devices.untaken = s.statics.devices.untaken ∧
      (waiting s.statics.devices = [] → s.statics.devices.pending ≤ n →
        Devices.codes served = s.statics.devices.untaken) ∧
      (waiting s.statics.devices ≠ [] → Devices.codes served = []) := by
  refine (kiStartupProcessorMachineDependent_starts h).bind fun _ t ht => ?_
  obtain ⟨hrun, -, hkeyboard, htimer, hdevices, hsignals, hwaits⟩ := ht
  have huntaken : t.statics.devices.untaken = s.statics.devices.untaken := by
    rw [hdevices]
    exact Devices.outAll_untaken _ _
  have hpending : t.statics.devices.pending ≤ s.statics.devices.pending := by
    rw [hdevices]
    exact Devices.outAll_pending _ _
  generalize (chars readyMessage).foldl Screen.type scr = scr' at hrun ⊢
  have hlive : Live image t { timer := s.statics.screenTimer
                              terminal := { keyboard := s.statics.keyboard, screen := scr' } } :=
    ⟨hrun, hkeyboard, htimer⟩
  cases hwaiting : waiting s.statics.devices with
  | nil =>
    refine (interruptCycles_serve hlive h.laid h.layout (hsignals hwaiting)
      (by rw [huntaken]; exact hnamed) n).mono fun _ w hw => ?_
    obtain ⟨served, hserved, -, hall⟩ := hw
    refine ⟨served, hserved.live, ?_, fun _ hn => ?_, fun hne => absurd rfl hne⟩
    · rw [hserved.untaken, huntaken]
    · rw [hall (Nat.le_trans hpending hn), huntaken]
  | cons code rest =>
    refine (interruptCycles_wait hlive h.laid h.layout (hwaits code (by rw [hwaiting]; rfl))
      n).mono fun _ w hw => ?_
    obtain ⟨served, hserved, hnone⟩ := hw
    refine ⟨served, hserved.live, ?_, fun hempty => ?_, fun _ => hnone⟩
    · rw [hserved.untaken, huntaken]
    · cases hempty

/-- For every text over the characters of the keyboard there are keys that make a kernel show it
behind its message, however the devices spread them over time. -/
theorem startup_types {text : List (BitVec 8)} (htext : ∀ c ∈ text, c ∈ typedChars) :
    ∃ codes, ∀ {image : KernelImage} {initialP4Table : Ptr} {s : Machine KernelStatics}
      {scr : Screen}, Loaded image initialP4Table s scr →
      s.statics.keyboard.shiftModifier = 0 → s.statics.keyboard.capsLock = 0 →
      s.statics.devices.untaken = codes → waiting s.statics.devices = [] →
      Returns (do
        kiStartupProcessorMachineDependent image initialP4Table 0
        interruptCycles image s.statics.devices.pending) s fun _ t =>
        Showing image t ((chars readyMessage ++ text).foldl Screen.type scr) := by
  obtain ⟨codes, hnamed, hpress⟩ := Terminal.exists_keysFor htext
  refine ⟨codes, fun {image initialP4Table s scr} h hshift hcaps huntaken hwaiting => ?_⟩
  refine (startup_run h (by rw [huntaken]; exact hnamed) _).mono fun _ t ht => ?_
  obtain ⟨served, hlive, -, hall, -⟩ := ht
  rw [List.foldl_append]
  generalize (chars readyMessage).foldl Screen.type scr = scr' at hlive ⊢
  have hterminal := Session.terminal_foldl served
    { timer := s.statics.screenTimer
      terminal := { keyboard := s.statics.keyboard, screen := scr' } }
  rw [hall hwaiting (Nat.le_refl _), huntaken, hpress _ hshift hcaps] at hterminal
  have hshows := hlive.shows
  rw [hterminal] at hshows
  exact hshows

theorem Loaded.onDevices {initialP4Table : Ptr} {scr : Screen}
    (h : Loaded image initialP4Table s scr) : Loaded image initialP4Table (s.onDevices g) scr :=
  ⟨h.laid, h.texts, ⟨h.shows.shows, h.shows.front⟩, h.layout, h.mapped, h.root⟩

/-- The kernel in memory, when these keys are going to be pressed. -/
def typedMachine (codes : List (BitVec 8)) : Machine KernelStatics :=
  kernelMachine.onDevices fun d =>
    { d with future := List.replicate 20 [] ++ codes.map fun code => [.key code] }

theorem typedMachine_untaken (codes : List (BitVec 8)) :
    (typedMachine codes).statics.devices.untaken = codes := by
  have hkeys : (codes.map fun code => [Arrival.key code]).flatMap Devices.codes = codes := by
    induction codes with
    | nil => rfl
    | cons code codes ih => exact congrArg (code :: ·) ih
  exact hkeys

theorem startup_types_ok : ∃ codes,
    Returns (do
      kiStartupProcessorMachineDependent kernelImage 0xFFFFFF8000010000 0
      interruptCycles kernelImage (typedMachine codes).statics.devices.pending)
      (typedMachine codes) fun _ t =>
        Showing kernelImage t ((chars readyMessage ++ chars "Feral OS\n").foldl Screen.type
          (shown ((machinePart consolePart).get kernelMachine))) := by
  have htext : ∀ c ∈ chars "Feral OS\n", c ∈ typedChars := by decide
  obtain ⟨codes, h⟩ := startup_types htext
  exact ⟨codes, h kernelMachine_loaded.onDevices rfl rfl (typedMachine_untaken codes) rfl⟩

/-- The first processor is started and then serves interrupts, in any order in which the devices ask
for them.  What the console shows and what the flags of the keyboard are comes from a first part of
the bytes of the keyboard, and the others are still to be served.  If no byte waits when the first
controller is told to start, all bytes have been served after enough cycles, and otherwise none ever
is. -/
theorem startup_serves {initialP4Table : Ptr} {scr : Screen}
    (h : Loaded image initialP4Table s scr) (hnamed : Named s.statics.devices.untaken) (n : Nat) :
    Returns (do
      kiStartupProcessorMachineDependent image initialP4Table 0
      interruptCycles image n) s fun _ t => ∃ taken,
      s.statics.devices.untaken = taken ++ t.statics.devices.untaken ∧
      (let terminal := taken.foldl Terminal.press
        { keyboard := s.statics.keyboard, screen := (chars readyMessage).foldl Screen.type scr }
      Showing image t terminal.screen ∧ t.statics.keyboard = terminal.keyboard) ∧
      (s.statics.screenTimer.toNat < 16 → t.statics.screenTimer.toNat < 16) ∧
      t.statics.devices.settings = started ∧ t.statics.interruptFlag = true ∧
      (∀ v, entered image t v = if v = 0xFF then none else some (handlerOf v)) ∧
      (waiting s.statics.devices = [] → s.statics.devices.pending ≤ n →
        t.statics.devices.untaken = []) ∧
      (waiting s.statics.devices ≠ [] → taken = []) := by
  refine (startup_run h hnamed n).mono fun _ t ht => ?_
  obtain ⟨served, hlive, huntaken, hall, hnone⟩ := ht
  generalize (chars readyMessage).foldl Screen.type scr = scr' at hlive ⊢
  have hterminal := Session.terminal_foldl served
    { timer := s.statics.screenTimer
      terminal := { keyboard := s.statics.keyboard, screen := scr' } }
  refine ⟨Devices.codes served, huntaken.symm, ⟨?_, ?_⟩, fun htimer => ?_, hlive.settings,
    hlive.flag, entered_eq h.laid hlive.tables, fun hwaiting hn => ?_, hnone⟩
  · have hshows := hlive.shows
    rw [hterminal] at hshows
    exact hshows
  · have hkeyboard := hlive.keyboard
    rw [hterminal] at hkeyboard
    exact hkeyboard
  · rw [hlive.timer]
    exact Session.timer_foldl served _ htimer
  · rw [hall hwaiting hn] at huntaken
    exact List.append_cancel_left (huntaken.trans (List.append_nil _).symm)

/-- The key comes after the controllers have been set up, and it is served. -/
theorem kernelMachine_serves :
    Returns (do
      kiStartupProcessorMachineDependent kernelImage 0xFFFFFF8000010000 0
      interruptCycles kernelImage 46) kernelMachine fun _ t =>
      t.statics.devices.untaken = [] ∧
      Showing kernelImage t ([0x1E, 0x9E].foldl Terminal.press
        { keyboard := ⟨0, 0, 0, 0⟩
          screen := (chars readyMessage).foldl Screen.type
            (shown ((machinePart consolePart).get kernelMachine)) }).screen := by
  refine (startup_serves kernelMachine_loaded (by unfold Named; decide) 46).mono fun _ t ht => ?_
  obtain ⟨taken, huntaken, ⟨hshows, -⟩, -, -, -, -, hall, -⟩ := ht
  have hempty := hall (by decide) (by decide)
  have htaken : taken = [0x1E, 0x9E] := by
    rw [hempty, List.append_nil] at huntaken
    exact huntaken.symm
  rw [htaken] at hshows
  exact ⟨hempty, hshows⟩

end Cycle

end Interrupts

end FeralKernel
