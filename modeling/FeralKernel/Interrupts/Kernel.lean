import FeralKernel.Console.Typing
import FeralKernel.Interrupts.Descriptors
import FeralKernel.Interrupts.Devices

/-!
# The kernel and its devices

The static variables of the kernel beside the registers of the processor and the devices, where
the parts of its image are, and the functions that reach a port or a register: `x86inb` and
`x86outb` of `asm_helpers.c`, `x86_io_stall` of `mm/mm.asm`, `x86_install_gdt` and
`x86_install_idt` of `boot/helper.asm`, and `KiRestoreInterrupts` and the ends of interrupts of
`interrupts.c`.
-/

namespace FeralKernel

open Verif.Program Verif.Bytes

/-- What `lgdt` and `lidt` load. -/
structure DescriptorTable where
  limit : BitVec 16
  base : Ptr
deriving DecidableEq, Repr

/-- `interruptFlag` is the flag that `sti` sets. -/
structure KernelStatics where
  console : VgaContext
  keyboard : PS2KeyboardContext
  screenTimer : BitVec 8
  devices : Devices
  gdtr : DescriptorTable
  idtr : DescriptorTable
  interruptFlag : Bool

/-- `CurVgaContext`. -/
def consolePart : Part KernelStatics VgaContext where
  get k := k.console
  set k v := { k with console := v }
  get_set _ _ := rfl
  set_get _ := rfl
  set_set _ _ _ := rfl

/-- `KeyboardContext`. -/
def keyboardPart : Part KernelStatics PS2KeyboardContext where
  get k := k.keyboard
  set k v := { k with keyboard := v }
  get_set _ _ := rfl
  set_get _ := rfl
  set_set _ _ _ := rfl

/-- Where things are: the tables of the processor, the page tables by their physical addresses,
the screen, on the stack the `Buffer` of `PS2KeyboardHandler` and the buffers of `KiPrintFmt`, the
code of the handlers and the texts. -/
structure KernelImage where
  idt : Ptr
  idtPtr : Ptr
  gdtEntries : Ptr
  globalGdt : Ptr
  p4Table : Ptr
  p3Table : Ptr
  p2Table : Ptr
  screen : Ptr
  screenBytes : Nat
  letter : Ptr
  digits : Ptr
  entry : Handler → Ptr
  keys : KeyStrings
  literal : String → Ptr

/-! ## The layout of memory -/

/-- The parts of memory that matter here. -/
inductive Area where
  | idt
  | idtPtr
  | gdtEntries
  | globalGdt
  | p4Table
  | p3Table
  | p2Table
  | screen
  | letter
  | digits
deriving DecidableEq, Repr

namespace KernelImage

variable (image : KernelImage)

def start : Area → Ptr
  | .idt => image.idt
  | .idtPtr => image.idtPtr
  | .gdtEntries => image.gdtEntries
  | .globalGdt => image.globalGdt
  | .p4Table => image.p4Table
  | .p3Table => image.p3Table
  | .p2Table => image.p2Table
  | .screen => image.screen
  | .letter => image.letter
  | .digits => image.digits

def size : Area → Nat
  | .idt => 4096
  | .idtPtr => 10
  | .gdtEntries => 40
  | .globalGdt => 10
  | .p4Table => 4096
  | .p3Table => 4096
  | .p2Table => 4096
  | .screen => image.screenBytes
  | .letter => 2
  | .digits => 22

def In (x : Area) (a : Nat) : Prop :=
  phys (image.start x) ≤ a ∧ a < phys (image.start x) + image.size x

/-- No two of the parts meet, and the handlers are different functions. -/
structure Laid : Prop where
  spans : ∀ x, Spans (image.start x) (image.size x)
  nonnull : image.letter ≠ 0 ∧ image.digits ≠ 0
  apart : ∀ x y, x ≠ y → ∀ a, image.In x a → ¬ image.In y a
  entries : Function.Injective image.entry

/-- Memory has changed in these parts alone. -/
def ChangedIn (areas : List Area) (m m' : Mem) : Prop :=
  ∀ a, (∀ x ∈ areas, ¬ image.In x a) → m' a = m a

/-- A text that is not written over. -/
structure Fixed (m : Mem) (a : Ptr) (text : List (BitVec 8)) : Prop extends CString m a text where
  clear : ∀ k, k ≤ text.length → ∀ x, ¬ image.In x (phys (a + BitVec.ofNat 64 k))

/-- The texts that are printed. -/
def messages : List String :=
  ["", " ", "%", "IDT Ready to work...\n", "DIVIDING BY ZERO!!!\n", "Unhandled Interrupt!\n",
    "Unhandled Interrupt! (PIC1) \n", "Unhandled Interrupt! (PIC2) \n"]

/-- The texts and the names of the keys are in memory. -/
structure Texts (m : Mem) : Prop where
  messages : ∀ text ∈ messages, image.Fixed m (image.literal text) (chars text)
  keys : image.keys.In m
  namesClear : ∀ name ∈ ps2Names, ∀ k, k ≤ (chars name).length → ∀ x,
    ¬ image.In x (phys (image.keys.literal name + BitVec.ofNat 64 k))
  tableClear : ∀ i, i < ps2Names.length → ∀ j, j < 8 → ∀ x,
    ¬ image.In x (phys (image.keys.ps2Charmap + 8 * BitVec.ofNat 64 i) + j)

variable {image} {areas areas' : List Area} {m m' m'' : Mem}

theorem ChangedIn.refl : image.ChangedIn areas m m := fun _ _ => rfl

theorem ChangedIn.trans (h : image.ChangedIn areas m m') (h' : image.ChangedIn areas m' m'') :
    image.ChangedIn areas m m'' := fun a ha => (h' a ha).trans (h a ha)

theorem ChangedIn.mono (h : image.ChangedIn areas m m') (hsub : ∀ x ∈ areas, x ∈ areas') :
    image.ChangedIn areas' m m' := fun a ha => h a fun x hx => ha x (hsub x hx)

/-- A part that has not been written is as it was. -/
theorem ChangedIn.area (h : image.ChangedIn areas m m') (hl : image.Laid) {y : Area}
    (hy : y ∉ areas) {a : Nat} (ha : image.In y a) : m' a = m a :=
  h a fun x hx hxa => hl.apart x y (fun he => hy (he ▸ hx)) a hxa ha

theorem Fixed.congr {a : Ptr} {text : List (BitVec 8)} (h : image.Fixed m a text)
    (hm : image.ChangedIn areas m m') : image.Fixed m' a text :=
  ⟨h.toCString.congr fun k hk => hm _ fun x _ => h.clear k hk x, h.clear⟩

theorem Texts.congr (h : image.Texts m) (hm : image.ChangedIn areas m m') : image.Texts m' := by
  refine ⟨fun text ht => (h.messages text ht).congr hm, ⟨fun i hi => ?_, fun name hname => ?_⟩,
    h.namesClear, h.tableClear⟩
  · rw [← h.keys.table i hi]
    exact read64_shift fun j hj => hm _ fun x _ => h.tableClear i hi j hj x
  · exact (h.keys.text name hname).congr fun k hk => hm _ fun x _ => h.namesClear name hname k hk x

end KernelImage

/-- The state with other devices. -/
def Machine.onDevices (s : Machine KernelStatics) (f : Devices → Devices) :
    Machine KernelStatics :=
  { s with statics := { s.statics with devices := f s.statics.devices } }

namespace Machine

variable {s : Machine KernelStatics} {f g : Devices → Devices}

@[simp] theorem onDevices_mem : (s.onDevices f).mem = s.mem := rfl

@[simp] theorem onDevices_devices : (s.onDevices f).statics.devices = f s.statics.devices := rfl

theorem onDevices_statics :
    (s.onDevices f).statics = { s.statics with devices := f s.statics.devices } := rfl

theorem onDevices_onDevices : (s.onDevices f).onDevices g = s.onDevices fun d => g (f d) := rfl

end Machine

/-! ## Ports and registers -/

namespace Interrupts

def x86outb (port : BitVec 16) (v : BitVec 8) : Kern KernelStatics Unit :=
  modifyStatics fun k => { k with devices := k.devices.advance.out port v }

def x86inb (port : BitVec 16) : Kern KernelStatics (BitVec 8) := do
  let k ← getStatics
  let r := k.devices.advance.inp port
  setStatics { k with devices := r.2 }
  pure r.1

/-- What is written to this port does not matter. -/
def x86IoStall : Kern KernelStatics Unit := x86outb 0x80 0

def x86PICSendEOIPIC1 : Kern KernelStatics Unit := x86outb 0x20 0x20

def x86PICSendEOIPIC2 : Kern KernelStatics Unit := do
  x86outb 0xA0 0x20
  x86outb 0x20 0x20

def kiRestoreInterrupts (value : Bool) : Kern KernelStatics Unit :=
  modifyStatics fun k => { k with interruptFlag := value }

/-- The packed structure that `lgdt` and `lidt` take. -/
def loadTable (pointer : Ptr) : Kern KernelStatics DescriptorTable := do
  let limit ← load16 pointer
  let base ← load64 (pointer + 2)
  pure { limit := limit, base := base }

def x86InstallGdt (pointer : Ptr) : Kern KernelStatics Unit := do
  let table ← loadTable pointer
  modifyStatics fun k => { k with gdtr := table }

def x86InstallIdt (pointer : Ptr) : Kern KernelStatics Unit := do
  let table ← loadTable pointer
  modifyStatics fun k => { k with idtr := table }

/-- `KiPrintFmt` with the functions of the VGA console behind it. -/
def kiPrintFmt (image : KernelImage) (fmt : Ptr) : Kern KernelStatics FeralStatus :=
  kiPrintFmtWith (fun c => focus (machinePart consolePart) (vgaCall c)) image.literal image.digits
    fmt fun _ => 0

/-- `KiBackspace`, which is `InternalVgaBackspace` there. -/
def kiBackspace : Kern KernelStatics Unit := focus (machinePart consolePart) internalVgaBackspace

section Ports

variable {s : Machine KernelStatics}

@[simp] theorem returns_x86outb {port : BitVec 16} {v : BitVec 8}
    {Q : Unit → Machine KernelStatics → Prop} : Returns (x86outb port v) s Q ↔
      Q () (s.onDevices fun d => d.advance.out port v) := returns_modifyStatics

@[simp] theorem returns_x86inb {port : BitVec 16} {Q : BitVec 8 → Machine KernelStatics → Prop} :
    Returns (x86inb port) s Q ↔ Q (s.statics.devices.advance.inp port).1
      (s.onDevices fun d => (d.advance.inp port).2) := by
  simp only [x86inb, returns_bind, returns_getStatics, returns_setStatics, returns_pure]
  exact Iff.rfl

@[simp] theorem returns_kiRestoreInterrupts {value : Bool}
    {Q : Unit → Machine KernelStatics → Prop} : Returns (kiRestoreInterrupts value) s Q ↔
      Q () { s with statics := { s.statics with interruptFlag := value } } :=
  returns_modifyStatics

/-- The table that has been stored is the one that is loaded. -/
theorem loadTable_spec {pointer : Ptr} (hspan : Spans pointer 10) {limit : BitVec 16} {base : Ptr}
    (hlimit : read16 s.mem (phys pointer) = limit)
    (hbase : read64 s.mem (phys pointer + 2) = base) :
    Returns (loadTable pointer) s fun table t =>
      table = { limit := limit, base := base } ∧ t.mem = s.mem ∧ t.statics = s.statics := by
  have h2 : phys (pointer + 2) = phys pointer + 2 := phys_add hspan (by decide : 2 < 10)
  simp only [loadTable, returns_bind, returns_load16, returns_load64, returns_pure, h2,
    Machine.note_mem, hlimit, hbase]
  exact ⟨trivial, trivial, rfl⟩

/-- Both fields of a table pointer. -/
def storeTable (pointer : Ptr) (limit : BitVec 16) (base : Ptr) : Kern KernelStatics Unit := do
  store16 pointer limit
  store64 (pointer + 2) base

theorem storeTable_spec {pointer : Ptr} (hspan : Spans pointer 10) (limit : BitVec 16) (base : Ptr) :
    Returns (storeTable pointer limit base) s fun _ t =>
      read16 t.mem (phys pointer) = limit ∧ read64 t.mem (phys pointer + 2) = base ∧
      (∀ x, x < phys pointer ∨ phys pointer + 10 ≤ x → t.mem x = s.mem x) ∧
      t.statics = s.statics := by
  have h2 : phys (pointer + 2) = phys pointer + 2 := phys_add hspan (by decide : 2 < 10)
  simp only [storeTable, returns_bind, returns_store16, returns_store64, Machine.note_mem,
    Machine.setMem_mem, h2]
  refine ⟨?_, read64_write64_same _ _ _, fun x hx => ?_, rfl⟩
  · rw [read16_shift fun k hk => write64_outside (by omega), read16_write16_same]
  · rw [write64_outside (by omega), write16, writeLE_outside (by omega)]

end Ports

/-! ## Printing -/

/-- The console shows `scr`, and what is drawn on is what can be seen. -/
structure Showing (image : KernelImage) (s : Machine KernelStatics) (scr : Screen) : Prop where
  shows : ShowsAt image.screen image.screenBytes ((machinePart consolePart).get s) scr
  front : s.statics.console.framebuffer = image.screen

section Printing

variable {image : KernelImage} {s t : Machine KernelStatics} {scr : Screen} {areas : List Area}

theorem Showing.congr (h : Showing image s scr) (hl : image.Laid)
    (hm : image.ChangedIn areas s.mem t.mem) (hscreen : Area.screen ∉ areas)
    (hstat : t.statics.console = s.statics.console) : Showing image t scr :=
  ⟨h.shows.congr hstat fun _ ha => hm.area hl hscreen ha, by rw [hstat]; exact h.front⟩

theorem besideScreen (hl : image.Laid) (ht : image.Texts s.mem) {fmt : Ptr}
    {text : List (BitVec 8)} (hfmt : CString s.mem fmt text)
    (hclear : ∀ k, k ≤ text.length → ¬ image.In .screen (phys (fmt + BitVec.ofNat 64 k)) ∧
      ¬ image.In .digits (phys (fmt + BitVec.ofNat 64 k))) (args : Nat → BitVec 64) :
    BesideScreen image.screen image.screenBytes s.mem image.literal image.digits fmt args text
      [] := by
  have hmessages : ∀ name ∈ ["", " ", "%"], name ∈ KernelImage.messages := by decide
  have hapart : ∀ {a : Nat}, ¬ image.In .digits a →
      a < phys image.digits ∨ phys image.digits + 22 ≤ a := by
    intro a ha
    have hno : ¬ (phys image.digits ≤ a ∧ a < phys image.digits + 22) := ha
    omega
  refine ⟨⟨hl.nonnull.2, hl.spans .digits, ⟨hfmt, fun k hk => hapart (hclear k hk).2⟩,
    fun name hname => ?_, fun k v hv => ?_⟩, fun a ha => hl.apart .screen .digits (by decide) a ha,
    fun k hk => (hclear k hk).1, fun name hname k hk => ?_, fun k t hv => ?_⟩
  · have hfixed := ht.messages name (hmessages name hname)
    exact ⟨hfixed.toCString, fun k hk => hapart (hfixed.clear k hk .digits)⟩
  · rw [List.getElem?_nil] at hv
    cases hv
  · exact (ht.messages name (hmessages name hname)).clear k hk .screen
  · rw [List.getElem?_nil] at hv
    cases hv

/-- A text without directives is printed, and beside the console nothing changes. -/
theorem kiPrintFmt_spec (hl : image.Laid) (ht : image.Texts s.mem) (hs : Showing image s scr)
    {fmt : Ptr} {text : List (BitVec 8)} (hfmt : CString s.mem fmt text)
    (hclear : ∀ k, k ≤ text.length → ¬ image.In .screen (phys (fmt + BitVec.ofNat 64 k)) ∧
      ¬ image.In .digits (phys (fmt + BitVec.ofNat 64 k))) (hplain : ∀ c ∈ text, c ≠ ch '%') :
    Returns (kiPrintFmt image fmt) s fun _ t => Showing image t (text.foldl Screen.type scr) ∧
      image.ChangedIn [.screen, .digits] s.mem t.mem ∧
      t.statics = { s.statics with console := t.statics.console } := by
  refine (kiPrintFmt_types hs.shows (besideScreen hl ht hfmt hclear _) hplain).mono fun _ t h => ?_
  obtain ⟨hshows, hm, hfront, hstat⟩ := h
  exact ⟨⟨hshows, hfront.trans hs.front⟩, fun a ha => hm a (ha .screen (by simp))
    (ha .digits (by simp)), hstat⟩

theorem messages_plain : (KernelImage.messages.all fun text =>
    text == "%" || (chars text).all fun c => c != ch '%') = true := by
  decide +kernel

theorem kiPrintFmt_message (hl : image.Laid) (ht : image.Texts s.mem) (hs : Showing image s scr)
    {text : String} (hmem : text ∈ KernelImage.messages) (hpercent : text ≠ "%") :
    Returns (kiPrintFmt image (image.literal text)) s fun _ t =>
      Showing image t ((chars text).foldl Screen.type scr) ∧
      image.ChangedIn [.screen, .digits] s.mem t.mem ∧
      t.statics = { s.statics with console := t.statics.console } := by
  have hfixed := ht.messages text hmem
  have hplain : ∀ c ∈ chars text, c ≠ ch '%' := by
    simpa [hpercent] using List.all_eq_true.mp messages_plain text hmem
  exact kiPrintFmt_spec hl ht hs hfixed.toCString
    (fun k hk => ⟨hfixed.clear k hk .screen, hfixed.clear k hk .digits⟩) hplain

end Printing

end Interrupts

end FeralKernel
