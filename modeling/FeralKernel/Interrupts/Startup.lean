import FeralKernel.Interrupts.Kernel
import FeralKernel.Lib.MemFuncs
import FeralKernel.Paging.BootMap

/-!
# Starting the processor

`x86InitializeGDT`, `x86InitializeIDT` and `KiStartupProcessorMachineDependent` of
`kern/arch/x86_64/archstart.c`.  The controllers are told to start whatever they were doing, and
what has been requested of them before is forgotten.  No byte is read from the keyboard
controller, so a byte that waits there then is never announced again.

Interrupts that are served while the last message is printed are not part of this.
-/

namespace FeralKernel

open Verif.Program Verif.Bytes

namespace Interrupts

/-! ## The code -/

def x86InitializeGDT (image : KernelImage) : Kern KernelStatics Unit := do
  let limit : BitVec 16 := 5
  setUpGDT image.gdtEntries
  storeTable image.globalGdt (8 * limit - 1) image.gdtEntries
  x86InstallGdt image.globalGdt

/-- The first writes of `x86InitializeIDT`, to the timer. -/
def setTimer (divisor : BitVec 32) : Kern KernelStatics Unit := do
  x86outb 0x43 0x36
  x86outb 0x40 ((divisor.sshiftRight 0 &&& 0xFF).setWidth 8)
  x86outb 0x40 ((divisor.sshiftRight 8 &&& 0xFF).setWidth 8)

/-- The writes of `x86InitializeIDT` to the two controllers. -/
def startControllers : Kern KernelStatics Unit := do
  x86outb 0x20 (0x10 ||| 0x01)
  x86outb 0xA0 (0x10 ||| 0x01)
  x86IoStall
  x86outb 0x21 0x20
  x86outb 0xA1 0x28
  x86IoStall
  x86outb 0x21 0x04
  x86outb 0xA1 0x02
  x86IoStall
  x86outb 0x21 0x01
  x86outb 0xA1 0x01
  x86IoStall
  x86outb 0x21 0x01
  x86outb 0xA1 0x01
  x86IoStall
  x86outb 0x21 0xFC
  x86outb 0xA1 0x80

def readyMessage : String := "IDT Ready to work...\n"

def x86InitializeIDT (image : KernelImage) : Kern KernelStatics Unit := do
  let divisor : BitVec 32 := 11931840
  setTimer divisor
  let _ ← kiSetMemoryBytes image.idt 0 (16 * 256)
  startControllers
  storeTable image.idtPtr (16 * 256 - 1) image.idt
  x86SetupIDTEntries image.idt image.entry
  x86InstallIdt image.idtPtr
  kiRestoreInterrupts true
  let _ ← kiPrintFmt image (image.literal readyMessage)
  pure ()

/-- `initialP4Table` is what `get_initial_p4_table` returns. -/
def kiStartupProcessorMachineDependent (image : KernelImage) (initialP4Table : Ptr)
    (core : BitVec 32) : Kern KernelStatics Unit := do
  kiRestoreInterrupts false
  onlyIf (core = 0) do
    x86InitializeGDT image
    x86InitializeIDT image
    let _ ← x86UnmapAddress initialP4Table 0
    pure ()
  kiRestoreInterrupts true

/-! ## What the devices are set to -/

/-- The writes to the ports, in order. -/
def startupWrites : List (BitVec 16 × BitVec 8) :=
  [(0x43, 0x36), (0x40, 0xC0), (0x40, 0x10), (0x20, 0x11), (0xA0, 0x11), (0x80, 0), (0x21, 0x20),
    (0xA1, 0x28), (0x80, 0), (0x21, 0x04), (0xA1, 0x02), (0x80, 0), (0x21, 0x01), (0xA1, 0x01),
    (0x80, 0), (0x21, 0x01), (0xA1, 0x01), (0x80, 0), (0x21, 0xFC), (0xA1, 0x80)]

/-- Lines 0 to 7 get the vectors from 0x20 on and lines 8 to 15 those from 0x28 on.  Only lines 0
and 1 of the first controller are not masked, and an interrupt is in service until its end is
sent. -/
def started : Devices.Settings where
  master :=
    { base := 0x20, cascade := 0x04, mode := 0x01, mask := 0xFC, request := 0, service := 0,
      awaiting := [] }
  slave :=
    { base := 0x28, cascade := 0x02, mode := 0x01, mask := 0x80, request := 0, service := 0,
      awaiting := [] }
  pit := { control := 0x36, held := none, reload := 0x10C0 }

/-- The divisor has more bits than the timer, which gets the lower sixteen. -/
theorem pit_startup (p : Pit) : ((p.command 0x36).data 0xC0).data 0x10 = started.pit := by
  simp [Pit.command, Pit.data, started]

theorem settings_startup (d : Devices) : (d.outAll startupWrites).settings = started := by
  rw [Devices.settings_outAll]
  calc startupWrites.foldl (fun set w => set.out w.1 w.2) d.settings
      = { started with pit := ((d.settings.pit.command 0x36).data 0xC0).data 0x10 } := rfl
    _ = started := by rw [pit_startup]

/-- The bytes that wait when the first controller is told to start. -/
def waiting (d : Devices) : List (BitVec 8) := d.keys ++ (d.future.take 4).flatMap Devices.codes

/-- The writes after the one that starts the first controller. -/
theorem startupWrites_eq : startupWrites = (startupWrites.take 3 ++ [(0x20, 0x11)]) ++
    startupWrites.drop 4 := rfl

theorem startupWrites_rest : ∀ w ∈ startupWrites.drop 4, w.1 ≠ 0x20 ∨ w.2 &&& 0x10 = 0 := by
  simp [startupWrites]

/-- The first controller starts with no request, whatever waits. -/
theorem startMaster (d : Devices) :
    let d' := d.outAll (startupWrites.take 3 ++ [(0x20, 0x11)])
    d'.keys = waiting d ∧ d'.master.request = 0 := by
  intro d'
  refine ⟨(Devices.outAll_keys _ d).1, ?_⟩
  have hd' : d' = (d.outAll (startupWrites.take 3)).advance.out 0x20 0x11 :=
    Devices.outAll_append _ _ _
  rw [hd']
  rfl

/-- If no byte waits there, the keyboard is announced from then on. -/
theorem startup_signals {d : Devices} (h : waiting d = []) :
    (d.outAll startupWrites).Signals := by
  obtain ⟨hkeys, hrequest⟩ := startMaster d
  rw [startupWrites_eq, Devices.outAll_append]
  refine Devices.Signals.outAll startupWrites_rest ?_
  rw [Devices.Signals, hkeys, hrequest, h]
  decide

/-- A byte that waits there has lost its announcement. -/
theorem startup_waits {d : Devices} {code : BitVec 8} (h : (waiting d).head? = some code) :
    (d.outAll startupWrites).Waits code := by
  obtain ⟨hkeys, hrequest⟩ := startMaster d
  rw [startupWrites_eq, Devices.outAll_append]
  refine Devices.Waits.outAll startupWrites_rest ⟨?_, ?_⟩
  · rw [hkeys, h]
  · rw [hrequest]
    rfl

/-! ## The tables -/

/-- The tables that the processor has been given, and what stands in them. -/
structure Tables (image : KernelImage) (m : Mem) (k : KernelStatics) : Prop where
  gdtr : k.gdtr = { limit := 39, base := image.gdtEntries }
  idtr : k.idtr = { limit := 4095, base := image.idt }
  segments : ∀ i, i < 5 → segmentAt m (phys image.gdtEntries + 8 * i) = gdtSegment i
  gates : ∀ v, v ≠ 0xFF →
    (descriptors m image.idt v).gate = kernelGate (image.entry (handlerOf v))
  last : (descriptors m image.idt 0xFF).gate.present = false

section Startup

variable {image : KernelImage} {s t : Machine KernelStatics}

theorem descriptors_congr {m m' : Mem} {areas : List Area} (hl : image.Laid)
    (hm : image.ChangedIn areas m m') (hidt : Area.idt ∉ areas) (v : BitVec 8) :
    descriptors m' image.idt v = descriptors m image.idt v := by
  have hv := v.isLt
  refine descriptorAt_congr fun x h1 h2 => hm.area hl hidt ⟨?_, ?_⟩
  · exact Nat.le_trans (Nat.le_add_right _ _) h1
  · show x < phys image.idt + 4096
    omega

theorem segment_congr {m m' : Mem} {areas : List Area} (hl : image.Laid)
    (hm : image.ChangedIn areas m m') (hgdt : Area.gdtEntries ∉ areas) {i : Nat} (hi : i < 5) :
    segmentAt m' (phys image.gdtEntries + 8 * i) = segmentAt m (phys image.gdtEntries + 8 * i) := by
  refine segmentAt_congr fun x h1 h2 => hm.area hl hgdt ⟨?_, ?_⟩
  · exact Nat.le_trans (Nat.le_add_right _ _) h1
  · show x < phys image.gdtEntries + 40
    omega

theorem Tables.congr {m m' : Mem} {k k' : KernelStatics} {areas : List Area}
    (h : Tables image m k) (hl : image.Laid) (hm : image.ChangedIn areas m m')
    (hidt : Area.idt ∉ areas) (hgdt : Area.gdtEntries ∉ areas) (hk : k'.gdtr = k.gdtr)
    (hk' : k'.idtr = k.idtr) : Tables image m' k' := by
  refine ⟨hk.trans h.gdtr, hk'.trans h.idtr, fun i hi => ?_, fun v hv => ?_, ?_⟩
  · rw [← h.segments i hi]
    exact segment_congr hl hm hgdt hi
  · rw [descriptors_congr hl hm hidt]
    exact h.gates v hv
  · rw [descriptors_congr hl hm hidt]
    exact h.last

theorem storeTable_changed (hl : image.Laid) (pointer : Area) (hsize : image.size pointer = 10)
    (limit : BitVec 16) (base : Ptr) :
    Returns (storeTable (image.start pointer) limit base) s fun _ t =>
      read16 t.mem (phys (image.start pointer)) = limit ∧
      read64 t.mem (phys (image.start pointer) + 2) = base ∧
      image.ChangedIn [pointer] s.mem t.mem ∧ t.statics = s.statics := by
  have hspan : Spans (image.start pointer) 10 := hsize ▸ hl.spans pointer
  refine (storeTable_spec hspan limit base).mono fun _ t ht => ?_
  refine ⟨ht.1, ht.2.1, fun a ha => ht.2.2.1 a ?_, ht.2.2.2⟩
  have hno := ha pointer (List.mem_singleton_self _)
  rw [KernelImage.In, hsize] at hno
  omega

theorem x86InstallIdt_spec {pointer : Ptr} (hspan : Spans pointer 10) {limit : BitVec 16}
    {base : Ptr} (hlimit : read16 s.mem (phys pointer) = limit)
    (hbase : read64 s.mem (phys pointer + 2) = base) :
    Returns (x86InstallIdt pointer) s fun _ t => t.mem = s.mem ∧
      t.statics = { s.statics with idtr := { limit := limit, base := base } } := by
  rw [x86InstallIdt]
  refine (loadTable_spec hspan hlimit hbase).bind fun table u hu => ?_
  obtain ⟨rfl, hm, hstat⟩ := hu
  rw [returns_modifyStatics]
  exact ⟨hm, by rw [hstat]⟩

theorem x86InitializeGDT_spec (hl : image.Laid) :
    Returns (x86InitializeGDT image) s fun _ t =>
      (∀ i, i < 5 → segmentAt t.mem (phys image.gdtEntries + 8 * i) = gdtSegment i) ∧
      image.ChangedIn [.gdtEntries, .globalGdt] s.mem t.mem ∧
      t.statics = { s.statics with gdtr := { limit := 39, base := image.gdtEntries } } := by
  rw [x86InitializeGDT]
  have hspan : Spans image.gdtEntries 40 := hl.spans .gdtEntries
  refine (setUpGDT_spec hspan).bind fun _ t1 h1 => ?_
  refine (storeTable_changed hl .globalGdt rfl _ _).bind fun _ t2 h2 => ?_
  obtain ⟨hlimit, hbase, hm2, hstat2⟩ := h2
  refine (loadTable_spec (hl.spans .globalGdt) hlimit hbase).bind fun table t3 h3 => ?_
  obtain ⟨rfl, hm3, hstat3⟩ := h3
  have hfirst : image.ChangedIn [.gdtEntries] s.mem t1.mem := by
    intro a ha
    refine h1.outside a ?_
    have hno : ¬ (phys image.gdtEntries ≤ a ∧ a < phys image.gdtEntries + 40) :=
      ha .gdtEntries (by simp)
    omega
  rw [returns_modifyStatics]
  refine ⟨fun i hi => ?_, ?_, ?_⟩
  · rw [hm3, ← h1.entries i hi]
    exact segment_congr hl hm2 (by decide) hi
  · show image.ChangedIn _ s.mem t3.mem
    rw [hm3]
    exact (hfirst.mono (by simp)).trans (hm2.mono (by simp))
  · dsimp only
    rw [hstat3, hstat2, h1.statics]
    rfl

/-- Writes to ports, one after the other. -/
def writePorts (writes : List (BitVec 16 × BitVec 8)) : Kern KernelStatics Unit :=
  forM writes fun w => x86outb w.1 w.2

theorem writePorts_spec (writes : List (BitVec 16 × BitVec 8)) : ∀ s : Machine KernelStatics,
    Returns (writePorts writes) s fun _ t => t = s.onDevices (Devices.outAll writes) := by
  induction writes with
  | nil =>
    intro s
    exact returns_pure.mpr rfl
  | cons w writes ih =>
    intro s
    rw [writePorts, List.forM_cons, returns_bind, returns_x86outb]
    refine (ih _).mono fun _ t ht => ?_
    rw [ht, Machine.onDevices_onDevices]
    rfl

theorem setTimer_eq : setTimer 11931840 = writePorts (startupWrites.take 3) := by
  have hlow : (((11931840 : BitVec 32).sshiftRight 0 &&& 0xFF).setWidth 8 : BitVec 8) = 0xC0 := by
    decide
  have hhigh : (((11931840 : BitVec 32).sshiftRight 8 &&& 0xFF).setWidth 8 : BitVec 8) = 0x10 := by
    decide
  rw [setTimer, hlow, hhigh]
  rfl

theorem startControllers_eq : startControllers = writePorts (startupWrites.drop 3) := by
  have hicw1 : (0x10 ||| 0x01 : BitVec 8) = 0x11 := by decide
  rw [startControllers, hicw1]
  rfl

theorem cleared_not_present (m : Mem) (idt : Ptr) (v : BitVec 8) :
    (descriptors (fill m (phys idt) 4096 0) idt v).gate.present = false := by
  have hv := v.isLt
  have hflags : fill m (phys idt) 4096 0 (phys idt + 16 * v.toNat + 5) = 0 :=
    fill_inside (by omega)
  rw [descriptors, IDTDescriptor.gate, descriptorAt]
  dsimp only
  rw [hflags]
  rfl

theorem clearTable_spec (hl : image.Laid) :
    Returns (kiSetMemoryBytes image.idt 0 (16 * 256)) s fun _ t =>
      (∀ v, (descriptors t.mem image.idt v).gate.present = false) ∧
      image.ChangedIn [.idt] s.mem t.mem ∧ t.statics = s.statics := by
  have hspan : Spans image.idt 4096 := hl.spans .idt
  have hsize : setBytes (16 * 256) = 4096 := rfl
  refine (kiSetMemoryBytes_spec (by rw [hsize]; exact hspan) (by decide)).mono fun _ t ht => ?_
  obtain ⟨-, hm, hside⟩ := ht
  rw [hsize] at hm
  refine ⟨fun v => ?_, fun a ha => ?_, hside.1⟩
  · rw [hm]
    exact cleared_not_present _ _ v
  · have hno : ¬ (phys image.idt ≤ a ∧ a < phys image.idt + 4096) := ha .idt (by simp)
    rw [hm, fill_outside (by omega)]

/-- The gates, once they have been set in a table that was cleared. -/
theorem setupEntries_spec (hl : image.Laid)
    (hclear : ∀ v, (descriptors s.mem image.idt v).gate.present = false) :
    Returns (x86SetupIDTEntries image.idt image.entry) s fun _ t =>
      (∀ v, v ≠ 0xFF →
        (descriptors t.mem image.idt v).gate = kernelGate (image.entry (handlerOf v))) ∧
      (descriptors t.mem image.idt 0xFF).gate.present = false ∧
      image.ChangedIn [.idt] s.mem t.mem ∧ t.statics = s.statics := by
  have hspan : Spans image.idt 4096 := hl.spans .idt
  refine (x86SetupIDTEntries_spec hspan).mono fun _ t ht => ?_
  refine ⟨fun v hv => ?_, ?_, fun a ha => ht.outside a ?_, ht.statics⟩
  · rw [ht.table]
    dsimp only
    rw [if_neg hv]
    exact gate_gateDescriptor _
  · rw [ht.table]
    exact hclear 0xFF
  · have hno : ¬ (phys image.idt ≤ a ∧ a < phys image.idt + 4096) := ha .idt (by simp)
    omega

theorem x86InitializeIDT_spec (hl : image.Laid) (htexts : image.Texts s.mem) {scr : Screen}
    (hs : Showing image s scr) :
    Returns (x86InitializeIDT image) s fun _ t =>
      (∀ v, v ≠ 0xFF →
        (descriptors t.mem image.idt v).gate = kernelGate (image.entry (handlerOf v))) ∧
      (descriptors t.mem image.idt 0xFF).gate.present = false ∧
      Showing image t ((chars readyMessage).foldl Screen.type scr) ∧
      image.ChangedIn [.idt, .idtPtr, .screen, .digits] s.mem t.mem ∧
      t.statics = { s.statics with
        console := t.statics.console
        devices := s.statics.devices.outAll startupWrites
        idtr := { limit := 4095, base := image.idt }
        interruptFlag := true } := by
  rw [x86InitializeIDT]
  dsimp only
  rw [setTimer_eq, startControllers_eq]
  refine (writePorts_spec _ s).bind fun _ t1 h1 => ?_
  refine (clearTable_spec hl).bind fun _ t2 h2 => ?_
  obtain ⟨hclear, hm2, hstat2⟩ := h2
  refine (writePorts_spec _ t2).bind fun _ t3 h3 => ?_
  refine (storeTable_changed hl .idtPtr rfl _ _).bind fun _ t4 h4 => ?_
  obtain ⟨hlimit, hbase, hm4, hstat4⟩ := h4
  have hcleared : ∀ v, (descriptors t4.mem image.idt v).gate.present = false := by
    intro v
    rw [descriptors_congr hl hm4 (by decide), h3]
    exact hclear v
  refine (setupEntries_spec hl hcleared).bind fun _ t5 h5 => ?_
  obtain ⟨hgates, hlast, hm5, hstat5⟩ := h5
  -- the bytes of `IDTPTR` are not touched by the gates
  have hsame : ∀ k, k < 10 → t5.mem (phys image.idtPtr + k) = t4.mem (phys image.idtPtr + k) := by
    intro k hk
    refine hm5.area hl (y := .idtPtr) (by decide) ⟨Nat.le_add_right _ _, ?_⟩
    show phys image.idtPtr + k < phys image.idtPtr + 10
    omega
  have hlimit5 : read16 t5.mem (phys image.idtPtr) = 16 * 256 - 1 := by
    rw [← hlimit]
    exact read16_shift fun k hk => hsame k (by omega)
  have hbase5 : read64 t5.mem (phys image.idtPtr + 2) = image.idt := by
    rw [← hbase]
    refine read64_shift fun k hk => ?_
    rw [Nat.add_assoc, hsame (2 + k) (by omega), ← Nat.add_assoc]
    rfl
  refine (x86InstallIdt_spec (hl.spans .idtPtr) hlimit5 hbase5).bind fun _ t6 h6 => ?_
  obtain ⟨hm6, hstat6⟩ := h6
  refine Returns.bind (P := fun _ t7 => t7.mem = t5.mem ∧ t7.statics = { t6.statics with
    interruptFlag := true }) (returns_kiRestoreInterrupts.mpr ⟨hm6, rfl⟩) fun _ t7 h7 => ?_
  obtain ⟨hm7, hstat7⟩ := h7
  have hbefore : image.ChangedIn [.idt, .idtPtr] s.mem t7.mem := by
    have h3' : image.ChangedIn [.idt] s.mem t3.mem := by
      rw [h3]
      show image.ChangedIn _ s.mem t2.mem
      rw [h1] at hm2
      exact hm2
    rw [hm7]
    exact ((h3'.mono (by simp)).trans (hm4.mono (by simp))).trans (hm5.mono (by simp))
  have hstat : t7.statics = { s.statics with
      devices := s.statics.devices.outAll startupWrites
      idtr := { limit := 4095, base := image.idt }
      interruptFlag := true } := by
    rw [hstat7, hstat6, hstat5, hstat4, h3, Machine.onDevices_statics, hstat2, h1,
      Machine.onDevices_statics]
    dsimp only
    rw [← Devices.outAll_append, List.take_append_drop]
    rfl
  refine (kiPrintFmt_message hl (htexts.congr hbefore)
    (hs.congr hl hbefore (by decide) (by rw [hstat]))
    (show readyMessage ∈ KernelImage.messages by simp [KernelImage.messages, readyMessage]) (by simp [readyMessage])).bind
    fun _ u hu => ?_
  obtain ⟨hshow, hmu, hstatu⟩ := hu
  have hkept : ∀ v, descriptors u.mem image.idt v = descriptors t5.mem image.idt v := by
    intro v
    rw [← hm7]
    exact descriptors_congr hl hmu (by decide) v
  rw [returns_pure]
  refine ⟨fun v hv => ?_, ?_, hshow,
    (hbefore.mono (by simp)).trans (hmu.mono (by simp)), hstatu.trans (by rw [hstat])⟩
  · rw [hkept]
    exact hgates v hv
  · rw [hkept]
    exact hlast

/-- What the code has written leaves the page tables alone. -/
theorem keepsBootTables {m m' : Mem} {areas : List Area} (hl : image.Laid)
    (hlayout : TableLayout image.p4Table image.p3Table image.p2Table)
    (hm : image.ChangedIn areas m m') (h4 : Area.p4Table ∉ areas) (h3 : Area.p3Table ∉ areas)
    (h2 : Area.p2Table ∉ areas) :
    KeepsBootTables image.p4Table image.p3Table image.p2Table m m' := by
  obtain ⟨hwin4, hwin3, hwin2⟩ := hlayout.window
  intro table htable x hx1 hx2
  have hin : ∀ y : Area, phys (image.start y) = table.toNat → image.size y = 4096 →
      image.In y x := by
    intro y hstart hsize
    rw [KernelImage.In, hstart, hsize]
    exact ⟨hx1, hx2⟩
  have hphys : ∀ a : Ptr, InWindow a 4096 → phys a = a.toNat := by
    intro a ha
    unfold InWindow at ha
    rw [phys, if_neg (by omega)]
  simp only [List.mem_cons, List.not_mem_nil, or_false] at htable
  rcases htable with rfl | rfl | rfl
  · exact hm.area hl h4 (hin .p4Table (hphys _ hwin4) rfl)
  · exact hm.area hl h3 (hin .p3Table (hphys _ hwin3) rfl)
  · exact hm.area hl h2 (hin .p2Table (hphys _ hwin2) rfl)

/-- The processor has been started, and the console shows `scr`. -/
structure Running (image : KernelImage) (s : Machine KernelStatics) (scr : Screen) : Prop where
  tables : Tables image s.mem s.statics
  mapped : BootMap false s.mem image.p4Table image.p3Table image.p2Table
  texts : image.Texts s.mem
  shows : Showing image s scr
  settings : s.statics.devices.settings = started
  flag : s.statics.interruptFlag = true

/-- The parts of memory that are written by then. -/
def startupAreas : List Area :=
  [.gdtEntries, .globalGdt, .idt, .idtPtr, .screen, .digits, .p4Table]

theorem firstProcessor_spec (hl : image.Laid) (htexts : image.Texts s.mem) {scr : Screen}
    (hs : Showing image s scr)
    (hlayout : TableLayout image.p4Table image.p3Table image.p2Table)
    (hmap : BootMap true s.mem image.p4Table image.p3Table image.p2Table) {initialP4Table : Ptr}
    (hroot : InitialRoot initialP4Table image.p4Table) :
    Returns (do
      x86InitializeGDT image
      x86InitializeIDT image
      let _ ← x86UnmapAddress initialP4Table 0
      pure ()) s fun _ t =>
      Running image t ((chars readyMessage).foldl Screen.type scr) ∧
      image.ChangedIn startupAreas s.mem t.mem ∧
      t.statics = { s.statics with
        console := t.statics.console
        devices := s.statics.devices.outAll startupWrites
        gdtr := { limit := 39, base := image.gdtEntries }
        idtr := { limit := 4095, base := image.idt }
        interruptFlag := true } := by
  refine (x86InitializeGDT_spec hl).bind fun _ t1 h1 => ?_
  obtain ⟨hsegments, hm1, hstat1⟩ := h1
  refine (x86InitializeIDT_spec hl (htexts.congr hm1)
    (hs.congr hl hm1 (by decide) (by rw [hstat1]))).bind fun _ t2 h2 => ?_
  obtain ⟨hgates, hlast, hshow, hm2, hstat2⟩ := h2
  have hm12 : image.ChangedIn [.gdtEntries, .globalGdt, .idt, .idtPtr, .screen, .digits]
      s.mem t2.mem := (hm1.mono (by simp)).trans (hm2.mono (by simp))
  have hkept := keepsBootTables hl hlayout hm12 (by decide) (by decide) (by decide)
  refine ((hmap.congr hkept).unmapLow hlayout hroot.phys_eq hroot.spans (v := 0) rfl).bind
    fun _ t3 h3 => ?_
  obtain ⟨-, hside, hm3, hmap3⟩ := h3
  have hm3 : image.ChangedIn [.p4Table] t2.mem t3.mem := by
    intro a ha
    have hlow : phys image.p4Table = image.p4Table.toNat := by
      have hgigabyte := hroot.gigabyte
      rw [phys, if_neg (by omega)]
    have hno : ¬ (phys image.p4Table ≤ a ∧ a < phys image.p4Table + 4096) :=
      ha .p4Table (List.mem_singleton_self _)
    rw [hm3, write64_outside (by omega)]
  have hstat3 : t3.statics = t2.statics := hside.1
  have htables : Tables image t2.mem t2.statics := by
    refine ⟨?_, ?_, fun i hi => ?_, hgates, hlast⟩
    · rw [hstat2, hstat1]
    · rw [hstat2]
    · rw [← hsegments i hi]
      exact segment_congr hl hm2 (by decide) hi
  have hstat : t3.statics = { s.statics with
      console := t3.statics.console
      devices := s.statics.devices.outAll startupWrites
      gdtr := { limit := 39, base := image.gdtEntries }
      idtr := { limit := 4095, base := image.idt }
      interruptFlag := true } := by
    rw [hstat3, hstat2, hstat1]
  have hall : image.ChangedIn startupAreas s.mem t3.mem :=
    (hm12.mono (by simp [startupAreas])).trans (hm3.mono (by simp [startupAreas]))
  rw [returns_pure]
  refine ⟨⟨?_, hmap3, htexts.congr hall, ?_, ?_, ?_⟩, hall, hstat⟩
  · exact htables.congr hl hm3 (by decide) (by decide) (by rw [hstat3]) (by rw [hstat3])
  · exact hshow.congr hl hm3 (by decide) (by rw [hstat3])
  · rw [hstat]
    exact settings_startup _
  · rw [hstat]

/-- The kernel before its first processor is started. -/
structure Loaded (image : KernelImage) (initialP4Table : Ptr) (s : Machine KernelStatics)
    (scr : Screen) : Prop where
  laid : image.Laid
  texts : image.Texts s.mem
  shows : Showing image s scr
  layout : TableLayout image.p4Table image.p3Table image.p2Table
  mapped : BootMap true s.mem image.p4Table image.p3Table image.p2Table
  root : InitialRoot initialP4Table image.p4Table

/-- The first processor is started, whatever the devices do meanwhile.  The keyboard is announced
afterwards if no byte waits when the first controller is told to start, and otherwise the first
byte is not. -/
theorem kiStartupProcessorMachineDependent_starts {initialP4Table : Ptr}
    {scr : Screen} (h : Loaded image initialP4Table s scr) :
    Returns (kiStartupProcessorMachineDependent image initialP4Table 0) s fun _ t =>
      Running image t ((chars readyMessage).foldl Screen.type scr) ∧
      image.ChangedIn startupAreas s.mem t.mem ∧
      t.statics.keyboard = s.statics.keyboard ∧ t.statics.screenTimer = s.statics.screenTimer ∧
      t.statics.devices = s.statics.devices.outAll startupWrites ∧
      (waiting s.statics.devices = [] → t.statics.devices.Signals) ∧
      ∀ code, (waiting s.statics.devices).head? = some code → t.statics.devices.Waits code := by
  rw [kiStartupProcessorMachineDependent, onlyIf, if_pos rfl]
  refine Returns.bind (P := fun _ t1 => t1.mem = s.mem ∧
    t1.statics = { s.statics with interruptFlag := false })
    (returns_kiRestoreInterrupts.mpr ⟨rfl, rfl⟩) fun _ t1 h1 => ?_
  obtain ⟨hm1, hstat1⟩ := h1
  have hconsole : t1.statics.console = s.statics.console := by rw [hstat1]
  have hsame : image.ChangedIn [] s.mem t1.mem := fun a _ => congrFun hm1 a
  have htexts := h.texts
  have hmap := h.mapped
  rw [← hm1] at htexts hmap
  refine (firstProcessor_spec h.laid htexts (h.shows.congr h.laid hsame (by simp) hconsole)
    h.layout hmap h.root).bind fun _ t2 h2 => ?_
  obtain ⟨hrun, hm2, hstat2⟩ := h2
  have hstat : t2.statics = { s.statics with
      console := t2.statics.console
      devices := s.statics.devices.outAll startupWrites
      gdtr := { limit := 39, base := image.gdtEntries }
      idtr := { limit := 4095, base := image.idt }
      interruptFlag := true } := by
    rw [hstat2, hstat1]
  refine returns_kiRestoreInterrupts.mpr ?_
  have hflag : ({ t2 with statics := { t2.statics with interruptFlag := true } } :
      Machine KernelStatics) = t2 := by
    rw [← hrun.flag]
  have hdevices : t2.statics.devices = s.statics.devices.outAll startupWrites := by rw [hstat]
  rw [hflag, ← hm1, hdevices]
  exact ⟨hrun, hm2, by rw [hstat], by rw [hstat], rfl, startup_signals, fun code => startup_waits⟩

end Startup

/-! ## A kernel in memory -/

/-- The tables of the processor from 128 KiB on, the page tables at 64 KiB and the texts from
1 MiB on. -/
def kernelImage : KernelImage where
  idt := 0x20000
  idtPtr := 0x21000
  gdtEntries := 0x22000
  globalGdt := 0x23000
  p4Table := 0x10000
  p3Table := 0x11000
  p2Table := 0x12000
  screen := kernPhysToVirt 0xB8000
  screenBytes := 4000
  letter := 0x24000
  digits := 0x25000
  entry := fun h =>
    match h with
    | .divideByZero => 0x500000
    | .genericHandler => 0x500100
    | .genericHandlerPIC1 => 0x500200
    | .genericHandlerPIC2 => 0x500300
    | .doubleFaultHandler => 0x500400
    | .pageFaultHandler => 0x500500
    | .pitHandler => 0x500600
    | .ps2KeyboardHandler => 0x500700
  keys := keyStrings
  literal := fun text => BitVec.ofNat 64 (0x100000 + 64 * KernelImage.messages.idxOf text)

/-- The entries of the three page tables. -/
def bootEntry (slot : Nat) : Nat :=
  if slot = 0 ∨ slot = 511 then 0x11003
  else if slot = 512 ∨ slot = 1023 then 0x12003
  else if 1024 ≤ slot ∧ slot < 1536 then (slot - 1024) * 0x200000 + 0x83
  else 0

def kernelMem : Mem := fun x =>
  if x < 0x100000 then BitVec.ofNat 8 (bootEntry ((x - 0x10000) / 8) / 256 ^ ((x - 0x10000) % 8))
  else if x < 0x200000 then
    (chars (KernelImage.messages.getD ((x - 0x100000) / 64) "")).getD ((x - 0x100000) % 64) 0
  else keyMem x

/-- Twenty bursts without a key, then a key. -/
def kernelMachine : Machine KernelStatics where
  mem := kernelMem
  log := []
  statics :=
    { console := typingMachine.statics
      keyboard := ⟨0, 0, 0, 0⟩
      screenTimer := 0
      devices :=
        { master := ⟨0, 0, 0, 0, 0, 0, []⟩
          slave := ⟨0, 0, 0, 0, 0, 0, []⟩
          pit := ⟨0, none, 0⟩
          latch := 0
          keys := []
          future := List.replicate 20 [] ++ [[.tick, .key 0x1E], [.key 0x9E]] }
      gdtr := ⟨0, 0⟩
      idtr := ⟨0, 0⟩
      interruptFlag := true }

/-- Where a part of `kernelImage` is in memory. -/
def kernelBase : Area → Nat
  | .idt => 0x20000
  | .idtPtr => 0x21000
  | .gdtEntries => 0x22000
  | .globalGdt => 0x23000
  | .p4Table => 0x10000
  | .p3Table => 0x11000
  | .p2Table => 0x12000
  | .screen => 0xB8000
  | .letter => 0x24000
  | .digits => 0x25000

theorem kernelImage_in {x : Area} {a : Nat} (h : kernelImage.In x a) :
    kernelBase x ≤ a ∧ a < kernelBase x + kernelImage.size x := by
  have hbase : phys (kernelImage.start x) = kernelBase x := by cases x <;> decide
  rw [← hbase]
  exact h

theorem kernelImage_low {x : Area} {a : Nat} (h : kernelImage.In x a) : a < 0x100000 := by
  have hend : kernelBase x + kernelImage.size x ≤ 0x100000 := by cases x <;> decide
  exact Nat.lt_of_lt_of_le (kernelImage_in h).2 hend

theorem kernelImage_laid : kernelImage.Laid := by
  refine ⟨fun x => ?_, by decide, fun x y hxy a hx hy => ?_, fun h h' heq => ?_⟩
  · unfold Spans
    cases x <;> decide
  · have hapart : kernelBase x + kernelImage.size x ≤ kernelBase y ∨
        kernelBase y + kernelImage.size y ≤ kernelBase x := by
      revert hxy
      cases x <;> cases y <;> decide
    have hinx := kernelImage_in hx
    have hiny := kernelImage_in hy
    omega
  · revert heq
    cases h <;> cases h' <;> decide

theorem messages_texts : KernelImage.messages.all (fun text =>
    decide ((chars text).length < 64) && (chars text).all (· != 0)) = true := by
  decide +kernel

theorem kernelMem_message {text : String} (htext : text ∈ KernelImage.messages) :
    CString kernelMem (kernelImage.literal text) (chars text) := by
  have hcheck := List.all_eq_true.mp messages_texts text htext
  rw [Bool.and_eq_true, decide_eq_true_eq, List.all_eq_true] at hcheck
  have hlength : KernelImage.messages.length = 8 := rfl
  refine cString_slot 0x100000 64 (by decide) (by rw [hlength]; decide)
    (fun i k hi hk => ?_) htext hcheck.1 fun c hc => by simpa using hcheck.2 c hc
  rw [hlength] at hi
  rw [kernelMem, if_neg (by omega), if_pos (by omega),
    show (0x100000 + (64 * i + k) - 0x100000) / 64 = i by omega,
    show (0x100000 + (64 * i + k) - 0x100000) % 64 = k by omega]

theorem phys_name {name : String} (hname : name ∈ ps2Names) {k : Nat}
    (hk : k ≤ (chars name).length) :
    0x200000 ≤ phys (keyStrings.literal name + BitVec.ofNat 64 k) := by
  have hindex := List.idxOf_lt_length_of_mem hname
  have hlength : ps2Names.length = 84 := rfl
  have hshort := List.all_eq_true.mp ps2Names_texts name hname
  rw [Bool.and_eq_true, decide_eq_true_eq] at hshort
  have hnat : (keyStrings.literal name).toNat = 0x300000 + 32 * ps2Names.idxOf name := by
    rw [keyStrings, BitVec.toNat_ofNat]
    exact Nat.mod_eq_of_lt (by omega)
  rw [phys_low (by omega) (by omega), hnat]
  omega

theorem phys_table {i : Nat} (hi : i < ps2Names.length) :
    phys (keyStrings.ps2Charmap + 8 * BitVec.ofNat 64 i) = 0x200000 + 8 * i := by
  have hlength : ps2Names.length = 84 := rfl
  have hoff : (8 : Ptr) * BitVec.ofNat 64 i = BitVec.ofNat 64 (8 * i) := by
    apply BitVec.eq_of_toNat_eq
    simp [BitVec.toNat_mul, BitVec.toNat_ofNat]
  rw [hoff, phys_low (by decide) (by omega)]
  rfl

theorem kernelMem_keys {x : Nat} (hx : 0x200000 ≤ x) : kernelMem x = keyMem x := by
  rw [kernelMem, if_neg (by omega), if_neg (by omega)]

theorem kernelMachine_texts : kernelImage.Texts kernelMachine.mem := by
  have hclear : ∀ {a : Nat} (x : Area), 0x100000 ≤ a → ¬ kernelImage.In x a := by
    intro a x ha hin
    have hlow := kernelImage_low hin
    omega
  refine ⟨fun text htext => ⟨kernelMem_message htext, fun k hk x => hclear x ?_⟩,
    ⟨fun i hi => ?_, fun name hname => ?_⟩, fun name hname k hk x => hclear x ?_,
    fun i hi j _ x => hclear x ?_⟩
  · have hindex := List.idxOf_lt_length_of_mem htext
    have hlength : KernelImage.messages.length = 8 := rfl
    have hcheck := List.all_eq_true.mp messages_texts text htext
    rw [Bool.and_eq_true, decide_eq_true_eq] at hcheck
    have hnat : (kernelImage.literal text).toNat =
        0x100000 + 64 * KernelImage.messages.idxOf text := by
      rw [kernelImage, BitVec.toNat_ofNat]
      exact Nat.mod_eq_of_lt (by omega)
    rw [phys_low (by omega) (by omega), hnat]
    omega
  · have htable := keyStrings_in.table i hi
    refine Eq.trans ?_ htable
    refine read64_shift fun k hk => ?_
    have haddr := phys_table hi
    exact kernelMem_keys (by rw [kernelImage, haddr]; omega)
  · refine (keyStrings_in.text name hname).congr fun k hk => kernelMem_keys ?_
    exact phys_name hname hk
  · exact Nat.le_trans (by decide) (phys_name hname hk)
  · have haddr := phys_table hi
    rw [kernelImage, haddr]
    omega

theorem read_bootEntry {j : Nat} (hj : j < 1536) :
    (read64 kernelMem (0x10000 + 8 * j)).toNat = bootEntry j % 2 ^ 64 := by
  have hread : readLE kernelMem (0x10000 + 8 * j) 8 = bootEntry j % 256 ^ 8 := by
    refine readLE_digits fun k hk => ?_
    rw [kernelMem, if_pos (by omega), show (0x10000 + 8 * j + k - 0x10000) / 8 = j by omega,
      show (0x10000 + 8 * j + k - 0x10000) % 8 = k by omega]
  rw [read64, hread, BitVec.toNat_ofNat]
  omega

theorem kernelMachine_bootMap : BootMap true kernelMachine.mem 0x10000 0x11000 0x12000 := by
  have hentry : ∀ {a j : Nat} {v : BitVec 64}, a = 0x10000 + 8 * j → j < 1536 →
      bootEntry j = v.toNat → read64 kernelMem a = v := by
    intro a j v ha hj hv
    apply BitVec.eq_of_toNat_eq
    rw [ha, read_bootEntry hj, hv]
    exact Nat.mod_eq_of_lt v.isLt
  refine ⟨fun i => ?_, fun i => ?_, fun i => ?_⟩
  · have hi := i.isLt
    have haddr : (0x10000 : Ptr).toNat + 8 * i.val = 0x10000 + 8 * i.val := rfl
    by_cases hends : RootSlot true i
    · have hval : i.val = 0 ∨ i.val = 511 := hends.symm.imp_left fun h => h.2
      rw [if_pos hends, entries_eq_some]
      refine ⟨hentry haddr (by omega) ?_, by decide⟩
      rw [bootEntry, if_pos hval]
      rfl
    · have hval : ¬ (i.val = 0 ∨ i.val = 511) := fun h =>
        hends (h.symm.imp_right fun h0 => ⟨rfl, h0⟩)
      have hzero : read64 kernelMachine.mem ((0x10000 : Ptr).toNat + 8 * i.val) = 0 := by
        refine hentry haddr (by omega) ?_
        rw [bootEntry, if_neg hval, if_neg (by omega), if_neg (by omega)]
        rfl
      rw [if_neg hends, entries_eq_none, hzero]
      rfl
  · have hi := i.isLt
    have haddr : (0x11000 : Ptr).toNat + 8 * i.val = 0x10000 + 8 * (512 + i.val) := by
      rw [show (0x11000 : Ptr).toNat = 0x11000 from rfl]
      omega
    by_cases hends : PointerSlot i
    · have hval : i.val = 0 ∨ i.val = 511 := hends
      rw [if_pos hends, entries_eq_some]
      refine ⟨hentry haddr (by omega) ?_, by decide⟩
      rw [bootEntry, if_neg (by omega), if_pos (by omega)]
      rfl
    · have hval : ¬ (i.val = 0 ∨ i.val = 511) := hends
      have hzero : read64 kernelMachine.mem ((0x11000 : Ptr).toNat + 8 * i.val) = 0 := by
        refine hentry haddr (by omega) ?_
        rw [bootEntry, if_neg (by omega), if_neg (by omega), if_neg (by omega)]
        rfl
      rw [if_neg hends, entries_eq_none, hzero]
      rfl
  · have hi := i.isLt
    have haddr : (0x12000 : Ptr).toNat + 8 * i.val = 0x10000 + 8 * (1024 + i.val) := by
      rw [show (0x12000 : Ptr).toNat = 0x12000 from rfl]
      omega
    rw [entries_eq_some]
    refine ⟨hentry haddr (by omega) ?_, (hugeEntry_flags _).1⟩
    rw [bootEntry, if_neg (by omega), if_neg (by omega), if_pos (by omega), toNat_hugeEntry hi,
      Nat.add_sub_cancel_left]

theorem kernelMachine_showing : Showing kernelImage kernelMachine
    (shown ((machinePart consolePart).get kernelMachine)) := by
  have hready : Ready ((machinePart consolePart).get kernelMachine) :=
    ⟨typingMachine_ready.sound, typingMachine_ready.spans, typingMachine_ready.nonnull⟩
  exact ⟨⟨⟨hready, Screen.Alike.refl _, by decide, by decide⟩, rfl, rfl⟩, rfl⟩

theorem kernelMachine_loaded : Loaded kernelImage 0xFFFFFF8000010000 kernelMachine
    (shown ((machinePart consolePart).get kernelMachine)) where
  laid := kernelImage_laid
  texts := kernelMachine_texts
  shows := kernelMachine_showing
  layout := bootMachine_image.layout
  mapped := kernelMachine_bootMap
  root := bootMachine_root

end Interrupts

end FeralKernel
