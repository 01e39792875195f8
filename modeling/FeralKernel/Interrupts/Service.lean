import FeralKernel.Interrupts.Handlers

/-!
# Interrupts that are not ended

A controller keeps the line that it serves until it is sent an end, and serves no line behind it
meanwhile.  The handlers of `kern/arch/x86_64/interrupts.c` do not all send the ends that their
vectors need.  With the masks of `x86InitializeIDT` only the vectors of the timer and the keyboard
come, and here the masks may be any.
-/

namespace FeralKernel

open Verif.Program Verif.Bytes

namespace Devices

variable {d d' : Devices} {v : BitVec 8}

/-- What the vector says of the lines that are served. -/
theorem interrupt_cases (h : d.interrupt = some (v, d')) :
    (∃ i : Fin 8, v = d.master.base + BitVec.ofNat 8 i ∧ d' = d.accepted i) ∨
      ∃ j : Fin 8, v = d.slave.base + BitVec.ofNat 8 j ∧
        d' = { d.accepted 2 with slave := d.slave.accept j } := by
  rw [interrupt, Option.map_eq_some_iff] at h
  obtain ⟨i, -, hi⟩ := h
  cases hslave : d.slave.next d.slave.request with
  | none =>
    rw [hslave] at hi
    obtain ⟨rfl, rfl⟩ := Prod.mk.inj hi
    exact Or.inl ⟨i, rfl, rfl⟩
  | some j =>
    rw [hslave] at hi
    dsimp only at hi
    by_cases h2 : i = 2
    · rw [if_pos h2] at hi
      obtain ⟨rfl, rfl⟩ := Prod.mk.inj hi
      subst h2
      exact Or.inr ⟨j, rfl, rfl⟩
    · rw [if_neg h2] at hi
      obtain ⟨rfl, rfl⟩ := Prod.mk.inj hi
      exact Or.inl ⟨i, rfl, rfl⟩

end Devices

/-- What the end of an interrupt leaves in service. -/
def endService (service : BitVec 8) : BitVec 8 := service &&& (service - 1)

theorem Pic.command_end (p : Pic) : p.command 0x20 = { p with service := endService p.service } := by
  rw [command, if_neg (by decide), if_pos rfl]
  rfl

namespace Handler

/-- What is in service behind the handler. -/
theorem drive_service (h : Handler) (d : Devices) :
    (h.drive d).master.service =
        (if (0x20, 0x20) ∈ h.ends then endService d.master.service else d.master.service) ∧
      (h.drive d).slave.service =
        (if (0xA0, 0x20) ∈ h.ends then endService d.slave.service else d.slave.service) := by
  have hread : (if h = .ps2KeyboardHandler then d.advance.takeKey.2 else d).settings =
      d.settings := by
    split
    · rw [Devices.settings_takeKey, Devices.settings_advance]
    · rfl
  have hset : (h.drive d).settings =
      h.ends.foldl (fun set w => set.out w.1 w.2) d.settings := by
    rw [drive, Devices.settings_outAll, hread]
  have hmaster : (h.drive d).master.service = (h.drive d).settings.master.service := rfl
  have hslave : (h.drive d).slave.service = (h.drive d).settings.slave.service := rfl
  rw [hmaster, hslave, hset]
  cases h with
  | genericHandlerPIC2 =>
    have hout : ends .genericHandlerPIC2 = [(0xA0, 0x20), (0x20, 0x20)] := rfl
    rw [hout, if_pos (by decide), if_pos (by decide)]
    simp only [List.foldl_cons, List.foldl_nil, Devices.Settings.out, Pic.command_end]
    exact ⟨rfl, rfl⟩
  | genericHandlerPIC1 => exact ⟨congrArg Pic.service (Pic.command_end _), rfl⟩
  | pitHandler => exact ⟨congrArg Pic.service (Pic.command_end _), rfl⟩
  | ps2KeyboardHandler => exact ⟨congrArg Pic.service (Pic.command_end _), rfl⟩
  | divideByZero => exact ⟨rfl, rfl⟩
  | genericHandler => exact ⟨rfl, rfl⟩
  | doubleFaultHandler => exact ⟨rfl, rfl⟩
  | pageFaultHandler => exact ⟨rfl, rfl⟩

end Handler

/-- The vectors whose handler sends the ends that are needed. -/
def Ended (v : BitVec 8) : Prop := ¬ (0x22 ≤ v ∧ v ≤ 0x27) ∧ v ≠ 0x2C

instance (v : BitVec 8) : Decidable (Ended v) := inferInstanceAs (Decidable (_ ∧ _))

theorem master_ended : ∀ i : Fin 8,
    ((if (0x20, 0x20) ∈ (handlerOf (0x20 + BitVec.ofNat 8 i)).ends then
        endService (0 ||| BitVec.twoPow 8 i) else 0 ||| BitVec.twoPow 8 i) = 0 ∧
      (if (0xA0, 0x20) ∈ (handlerOf (0x20 + BitVec.ofNat 8 i)).ends then endService 0 else 0) =
        (0 : BitVec 8)) ↔ Ended (0x20 + BitVec.ofNat 8 i) := by
  decide +kernel

theorem slave_ended : ∀ j : Fin 8,
    ((if (0x20, 0x20) ∈ (handlerOf (0x28 + BitVec.ofNat 8 j)).ends then
        endService (0 ||| BitVec.twoPow 8 2) else 0 ||| BitVec.twoPow 8 2) = 0 ∧
      (if (0xA0, 0x20) ∈ (handlerOf (0x28 + BitVec.ofNat 8 j)).ends then
        endService (0 ||| BitVec.twoPow 8 j) else 0 ||| BitVec.twoPow 8 j) = 0) ↔
      Ended (0x28 + BitVec.ofNat 8 j) := by
  decide +kernel

theorem vectors_stop : ∀ i : Fin 8, (0x20 + BitVec.ofNat 8 i ≠ 0xFF ∧
      ¬ (handlerOf (0x20 + BitVec.ofNat 8 i)).Stops) ∧
    0x28 + BitVec.ofNat 8 i ≠ 0xFF ∧ ¬ (handlerOf (0x28 + BitVec.ofNat 8 i)).Stops := by
  decide +kernel

namespace Interrupts

variable {image : KernelImage} {s : Machine KernelStatics} {u : Session} {d : Devices}
  {v : BitVec 8}

/-- With nothing in service an interrupt is taken and its handler run.  The handler leaves nothing
in service but for the lines 2 to 7 of the first controller, for which no end is sent, and line 4 of
the second, of which only the first controller is told. -/
theorem deliver_ended_iff (hl : image.Laid) (ht : Tables image s.mem s.statics)
    (h : Shown image s u)
    (hbase : s.statics.devices.master.base = 0x20 ∧ s.statics.devices.slave.base = 0x28)
    (hidle : s.statics.devices.master.service = 0 ∧ s.statics.devices.slave.service = 0)
    (hmode : s.statics.devices.master.mode &&& 0x02 = 0 ∧
      s.statics.devices.slave.mode &&& 0x02 = 0)
    (hint : s.statics.devices.interrupt = some (v, d))
    (hnamed : handlerOf v = .ps2KeyboardHandler →
      (d.advance.takeKey.1 &&& 0x7F).toNat < ps2Names.length) :
    Returns (deliver image v false) (s.onDevices fun _ => d) fun _ t =>
      (t.statics.devices.master.service = 0 ∧ t.statics.devices.slave.service = 0) ↔ Ended v := by
  have htables : Tables image (s.onDevices fun _ => d).mem (s.onDevices fun _ => d).statics :=
    ⟨ht.gdtr, ht.idtr, ht.segments, ht.gates, ht.last⟩
  have hshown : Shown image (s.onDevices fun _ => d) u :=
    ⟨h.texts, ⟨h.screen.shows, h.screen.front⟩, h.keyboard, h.timer⟩
  have hvector : v ≠ 0xFF ∧ ¬ (handlerOf v).Stops := by
    rcases Devices.interrupt_cases hint with ⟨i, rfl, -⟩ | ⟨j, rfl, -⟩
    · rw [hbase.1]
      exact (vectors_stop i).1
    · rw [hbase.2]
      exact (vectors_stop j).2
  refine (deliver_spec hl htables hshown hvector.1 hvector.2 fun hk => ⟨rfl, hnamed hk⟩).mono
    fun _ t hh => ?_
  obtain ⟨hmaster, hslave⟩ := Handler.drive_service (handlerOf v) d
  rw [hh.devices, Machine.onDevices_devices, hmaster, hslave]
  rcases Devices.interrupt_cases hint with ⟨i, rfl, rfl⟩ | ⟨j, rfl, rfl⟩
  · have haccepted : (s.statics.devices.accepted i).master.service = 0 ||| BitVec.twoPow 8 i := by
      rw [Devices.accepted, Pic.accept]
      dsimp only
      rw [if_pos hmode.1, hidle.1]
    have hother : (s.statics.devices.accepted i).slave.service = 0 := hidle.2
    rw [haccepted, hother, hbase.1]
    exact master_ended i
  · have haccepted : (s.statics.devices.accepted 2).master.service = 0 ||| BitVec.twoPow 8 2 := by
      rw [Devices.accepted, Pic.accept]
      dsimp only
      rw [if_pos hmode.1, hidle.1]
      rfl
    have hother : (s.statics.devices.slave.accept j).service = 0 ||| BitVec.twoPow 8 j := by
      rw [Pic.accept]
      dsimp only
      rw [if_pos hmode.2, hidle.2]
    dsimp only
    rw [haccepted, hother, hbase.2]
    exact slave_ended j

/-- Nothing is masked, and line 3 of the first controller is up. -/
def unmasked : Devices where
  master := ⟨0x20, 0x04, 0x01, 0, 0x08, 0, []⟩
  slave := ⟨0x28, 0x02, 0x01, 0, 0, 0, []⟩
  pit := ⟨0x36, none, 0x10C0⟩
  latch := 0
  keys := []
  future := []

/-- Line 3 stays in service. -/
theorem kernelMachine_unended :
    Returns (kiStartupProcessorMachineDependent kernelImage 0xFFFFFF8000010000 0) kernelMachine
      fun _ t => Returns (deliver kernelImage 0x23 false)
        (t.onDevices fun _ => unmasked.accepted 3) fun _ w =>
          ¬ (w.statics.devices.master.service = 0 ∧ w.statics.devices.slave.service = 0) := by
  refine (kiStartupProcessorMachineDependent_starts kernelMachine_loaded).mono fun _ t ht => ?_
  obtain ⟨hrun, -⟩ := ht
  generalize (chars readyMessage).foldl Screen.type _ = scr at hrun
  have htables : Tables kernelImage (t.onDevices fun _ => unmasked).mem
      (t.onDevices fun _ => unmasked).statics :=
    ⟨hrun.tables.gdtr, hrun.tables.idtr, hrun.tables.segments, hrun.tables.gates, hrun.tables.last⟩
  have hshown : Shown kernelImage (t.onDevices fun _ => unmasked)
      ⟨t.statics.screenTimer, ⟨t.statics.keyboard, scr⟩⟩ :=
    ⟨hrun.texts, ⟨hrun.shows.shows, hrun.shows.front⟩, rfl, rfl⟩
  have hint : (t.onDevices fun _ => unmasked).statics.devices.interrupt =
      some (0x23, unmasked.accepted 3) := by
    show unmasked.interrupt = _
    decide
  have hmode : unmasked.master.mode &&& 0x02 = 0 ∧ unmasked.slave.mode &&& 0x02 = 0 := by decide
  refine (deliver_ended_iff kernelImage_laid htables hshown ⟨rfl, rfl⟩ ⟨rfl, rfl⟩ hmode hint
    fun hne => absurd hne (by decide)).mono fun _ w hw => ?_
  rw [hw]
  decide

end Interrupts

end FeralKernel
