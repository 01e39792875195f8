import FeralKernel.Mm.NodeList
import Mathlib.Order.Bounds.Basic

/-!
# The worst case of the heap

`InternalMmWorstCaseMalloc` is a first-fit search for a run of unused nodes.  It stops at
the first node from which every node up to the end of the run, or up to the last node, is
unused, so a run that the last node cuts short is taken as well.  The marking loop behind it
goes on with the counter of the search, which has already gone past the length of a run that
is complete, and marks none of its nodes.
-/

namespace FeralKernel

open Verif.Program Verif.Bytes

variable {σ : Type}

/-- An arena whose nodes are `node 0` to `node len`, of which only the last is flagged as
such, with the fields `f`. -/
structure ArenaList (m : Mem) (arena : Ptr) (node : Nat → Ptr) (len : Nat)
    (f : Nat → NodeFields) : Prop where
  space : NodeSpace node len
  linked : WellLinked node len f
  nodes : ∀ i, i ≤ len → nodeAt m (node i) = f i
  notLast : ∀ i, i < len → (f i).last ≠ 1
  last : (f len).last = 1
  spans : Spans arena 32
  above : 48 ≤ arena.toNat
  root : read64 m (phys (Arena.root arena)) = node 0

/-- `RequiredNodes` of the source. -/
def requiredNodes (size : BitVec 64) : Nat := size.toNat / 128 + 1

theorem toNat_requiredNodes (size : BitVec 64) :
    (size / allocBlockSize + 1).toNat = requiredNodes size := by
  have hlt := size.isLt
  rw [requiredNodes, allocBlockSize, BitVec.toNat_add, BitVec.toNat_udiv,
    show (128 : BitVec 64).toNat = 128 from rfl, show (1 : BitVec 64).toNat = 1 from rfl]
  omega

theorem requiredNodes_lt (size : BitVec 64) : requiredNodes size < 2 ^ 58 := by
  have hlt := size.isLt
  rw [requiredNodes]
  omega

theorem requiredNodes_pos (size : BitVec 64) : 0 < requiredNodes size := Nat.succ_pos _

/-! ## What is looked for and what is found -/

/-- The `r` nodes from node `i` on are unused, and all lie before the last node. -/
def RunOfUnused (f : Nat → NodeFields) (len r i : Nat) : Prop :=
  i + r ≤ len ∧ ∀ j, i ≤ j → j < i + r → (f j).used = 0

/-- What the search takes for such a run: it may end at the last node before it is
complete. -/
def TakenForRun (f : Nat → NodeFields) (len r i : Nat) : Prop :=
  i < len ∧ ∀ j, i ≤ j → j < i + r → j < len → (f j).used = 0

theorem RunOfUnused.taken {f : Nat → NodeFields} {len r i : Nat} (h : RunOfUnused f len r i)
    (hr : 0 < r) : TakenForRun f len r i := by
  obtain ⟨hend, hunused⟩ := h
  exact ⟨by omega, fun j h1 h2 _ => hunused j h1 h2⟩

theorem TakenForRun.run {f : Nat → NodeFields} {len r i : Nat} (h : TakenForRun f len r i)
    (hend : i + r ≤ len) : RunOfUnused f len r i :=
  ⟨hend, fun j h1 h2 => h.2 j h1 h2 (by omega)⟩

/-- The nodes from `i` on, `n` of them, are flagged as used. -/
def marked (f : Nat → NodeFields) (i n : Nat) : Nat → NodeFields := fun j =>
  if i ≤ j ∧ j < i + n then { f j with used := 1 } else f j

theorem marked_zero (f : Nat → NodeFields) (i : Nat) : marked f i 0 = f := by
  funext j
  rw [marked, if_neg (by omega)]

theorem marked_succ (f : Nat → NodeFields) (i n : Nat) :
    Function.update (marked f i n) (i + n) { marked f i n (i + n) with used := 1 } =
      marked f i (n + 1) := by
  funext j
  by_cases hj : j = i + n
  · rw [hj, Function.update_self]
    simp [marked]
  · rw [Function.update_of_ne hj]
    simp only [marked, show i ≤ j ∧ j < i + n ↔ i ≤ j ∧ j < i + (n + 1) by omega]

@[simp] theorem marked_last (f : Nat → NodeFields) (i n j : Nat) :
    (marked f i n j).last = (f j).last := by
  rw [marked]
  split <;> rfl

@[simp] theorem marked_next (f : Nat → NodeFields) (i n j : Nat) :
    (marked f i n j).next = (f j).next := by
  rw [marked]
  split <;> rfl

@[simp] theorem marked_area (f : Nat → NodeFields) (i n j : Nat) :
    (marked f i n j).area = (f j).area := by
  rw [marked]
  split <;> rfl

/-! ## The loops -/

section Loops

variable {s t : Machine σ} {node : Nat → Ptr} {len i : Nat} {f : Nat → NodeFields}
  {required : BitVec 64}

/-- The search from one node: the count is one more than the number of nodes looked at. -/
theorem adjacentUnused_spec (h : Listed s node len f t) (hspace : NodeSpace node len)
    (hlinked : WellLinked node len f) (hnot : ∀ j, j < len → (f j).last ≠ 1)
    (hlast : (f len).last = 1) (hi : i < len) (hr : required.toNat < 2 ^ 58) :
    Returns (adjacentUnused required (node i)) t fun r u => Listed s node len f u ∧
      ((TakenForRun f len required.toNat i ∧
          r = (true, BitVec.ofNat 64 (min required.toNat (len - i) + 1))) ∨
        (¬ TakenForRun f len required.toNat i ∧ r.1 = false)) := by
  rw [adjacentUnused]
  refine returns_iterate (fun k loc u => ∃ c, c ≤ required.toNat ∧ i + c ≤ len ∧
      loc = (node (i + c), BitVec.ofNat 64 c) ∧ k = len - (i + c) ∧ Listed s node len f u ∧
      ∀ j, i ≤ j → j < i + c → (f j).used = 0)
    ?_ loopBound (len - i) _ t ?_ ⟨0, by omega, by omega, rfl, rfl, h, fun j h1 h2 => by omega⟩
  · rintro k loc u ⟨c, hc, hic, rfl, rfl, hu, hunused⟩
    dsimp only
    have hnat : (BitVec.ofNat 64 c).toNat = c := by
      rw [BitVec.toNat_ofNat]
      omega
    have hcount : BitVec.ofNat 64 c + 1 = BitVec.ofNat 64 (c + 1) := (BitVec.ofNat_add c 1).symm
    have hlt : BitVec.ofNat 64 c < required ↔ c < required.toNat := by
      rw [BitVec.lt_def, hnat]
    have hfull : c = required.toNat ∨ i + c = len → TakenForRun f len required.toNat i ∧
        (true, BitVec.ofNat 64 c + 1) =
          (true, BitVec.ofNat 64 (min required.toNat (len - i) + 1)) := by
      intro hend
      refine ⟨⟨hi, fun j h1 h2 h3 => hunused j h1 (by omega)⟩, ?_⟩
      rw [hcount, show min required.toNat (len - i) = c by omega]
    by_cases hmore : c < required.toNat
    · rw [if_pos (hlt.mpr hmore)]
      apply (hu.load_last hspace hic).bind
      rintro last u1 ⟨rfl, h1⟩
      by_cases hend : i + c = len
      · rw [hend, if_neg (by rw [hlast]; simp), returns_pure]
        exact ⟨h1, Or.inl (hfull (Or.inr hend))⟩
      · rw [if_pos (hnot _ (by omega))]
        apply (h1.load_used hspace hic).bind
        rintro used u2 ⟨rfl, h2⟩
        by_cases hused : (f (i + c)).used = 0
        · rw [if_neg (not_not_intro hused)]
          apply (h2.load_next hspace hic).bind
          rintro next u3 ⟨rfl, h3⟩
          rw [returns_pure, hlinked.next _ (by omega), hcount]
          refine ⟨len - (i + (c + 1)), by omega, c + 1, by omega, by omega, rfl, rfl, h3, ?_⟩
          intro j hj1 hj2
          by_cases hj : j = i + c
          · rw [hj]
            exact hused
          · exact hunused j hj1 (by omega)
        · rw [if_pos hused, returns_pure]
          exact ⟨h2, Or.inr ⟨fun htaken => hused (htaken.2 _ (by omega) (by omega) (by omega)), rfl⟩⟩
    · rw [if_neg (fun hc => hmore (hlt.mp hc)), returns_pure]
      exact ⟨hu, Or.inl (hfull (Or.inl (by omega)))⟩
  · have := hspace.length_lt
    rw [loopBound]
    omega

/-- The marking loop marks what its count leaves of the required nodes. -/
theorem markUsed_spec (h : Listed s node len f t) (hspace : NodeSpace node len)
    (hnext : ∀ j, j < len → (f j).next = node (j + 1))
    (hnot : ∀ j, j < len → (f j).last ≠ 1) (hlast : (f len).last = 1) (hi : i ≤ len)
    (hr : required.toNat < 2 ^ 58) (count : Nat) (hcount : count < 2 ^ 59) :
    Returns (markUsed required (node i) (BitVec.ofNat 64 count)) t fun _ u =>
      Listed s node len (marked f i (min (required.toNat - count) (len - i))) u := by
  rw [markUsed]
  refine returns_iterate (fun k loc u => ∃ c, c ≤ required.toNat - count ∧ i + c ≤ len ∧
      loc = (node (i + c), BitVec.ofNat 64 (count + c)) ∧ k = len - (i + c) ∧
      Listed s node len (marked f i c) u)
    ?_ loopBound (len - i) _ t ?_ ⟨0, by omega, by omega, rfl, rfl, by rw [marked_zero]; exact h⟩
  · rintro k loc u ⟨c, hc, hic, rfl, rfl, hu⟩
    dsimp only
    have hnat : (BitVec.ofNat 64 (count + c)).toNat = count + c := by
      rw [BitVec.toNat_ofNat]
      omega
    have hlt : BitVec.ofNat 64 (count + c) < required ↔ count + c < required.toNat := by
      rw [BitVec.lt_def, hnat]
    by_cases hmore : count + c < required.toNat
    · rw [if_pos (hlt.mpr hmore)]
      apply (hu.load_last hspace hic).bind
      rintro last u1 ⟨rfl, h1⟩
      rw [marked_last]
      by_cases hend : i + c = len
      · rw [hend, if_neg (by rw [hlast]; simp), returns_pure,
          show min (required.toNat - count) (len - i) = c by omega]
        exact h1
      · rw [if_pos (hnot _ (by omega))]
        apply (h1.store_used hspace hic 1).bind
        intro _ u2 h2
        rw [marked_succ] at h2
        apply (h2.load_next hspace hic).bind
        rintro next u3 ⟨rfl, h3⟩
        rw [returns_pure, marked_next, hnext _ (by omega)]
        refine ⟨len - (i + (c + 1)), by omega, c + 1, by omega, by omega, ?_, rfl, h3⟩
        rw [← Nat.add_assoc count, BitVec.ofNat_add (count + c)]
        rfl
    · rw [if_neg (fun hc => hmore (hlt.mp hc)), returns_pure,
        show min (required.toNat - count) (len - i) = c by omega]
      exact hu
  · have := hspace.length_lt
    rw [loopBound]
    omega

/-- The nodes after the run at node `i` was taken. -/
def afterTaken (f : Nat → NodeFields) (len r i : Nat) (index : BitVec 64) : Nat → NodeFields :=
  marked (initialized f i index) i (min (r - (min r (len - i) + 1)) (len - i))

theorem afterTaken_area (f : Nat → NodeFields) (len r i : Nat) (index : BitVec 64) (hi : i ≠ 0) :
    (afterTaken f len r i index i).area = (f (i - 1)).area + 1 := by
  rw [afterTaken, marked_area, initialized, Function.update_self]
  exact if_neg hi

/-- What is done with a run, once the index of the node before it has been read. -/
theorem takeRun_listed (h : Listed s node len f t) (hspace : NodeSpace node len)
    (hlinked : WellLinked node len f) (hnot : ∀ j, j < len → (f j).last ≠ 1)
    (hlast : (f len).last = 1) (hi : i < len) (hr : required.toNat < 2 ^ 58)
    (index : BitVec 64) :
    Returns (do
      internalInitializeNode (node i) (f i).previous (f i).next index
      markUsed required (node i) (BitVec.ofNat 64 (min required.toNat (len - i) + 1))
      load64 (Node.area (node i))) t fun p u =>
      p = (afterTaken f len required.toNat i index i).area ∧
        Listed s node len (afterTaken f len required.toNat i index) u := by
  apply (internalInitializeNode_listed h hspace hlinked (by omega) (by omega) index).bind
  intro _ t1 h1
  apply (markUsed_spec h1 hspace (fun j hj => by rw [initialized_next]; exact hlinked.next j hj)
    (fun j hj => by rw [initialized_last]; exact hnot j hj) (by rw [initialized_last]; exact hlast)
    (by omega) hr _ (by omega)).bind
  intro _ t2 h2
  exact h2.load_area hspace (by omega)

/-- A step off the null pointer, then one through it, and then others. -/
theorem Records.not_offNull {u v : Machine σ} {a : Ptr} {n : Nat} (h : Records OffNull s u)
    (ha : a.toNat < 48) (h' : Records OffNull (u.note (.read a n)) v) :
    ¬ Records OffNull s v := by
  obtain ⟨new, hnew, -⟩ := h
  obtain ⟨new', hnew', -⟩ := h'
  rintro ⟨all, hall, hoff⟩
  have happend : all = new' ++ .read a n :: new := by
    have hlog : all ++ s.log = new' ++ .read a n :: new ++ s.log := by
      rw [← hall, hnew', Machine.note_log, hnew, List.append_assoc, List.cons_append]
    exact List.append_cancel_right hlog
  have hread : OffNull (.read a n) := hoff _ (by rw [happend]; simp)
  exact absurd hread (by rw [OffNull]; omega)

/-- The result of the search: `p`, and the state `t` it leaves. -/
inductive Searched (s : Machine σ) (node : Nat → Ptr) (len : Nat) (f : Nat → NodeFields) (r : Nat)
    (p : Ptr) (t : Machine σ) : Prop where
  | nothing (hnone : ∀ i, ¬ TakenForRun f len r i) (hp : p = 0) (ht : Listed s node len f t)
  | taken (i : Nat) (index : BitVec 64) (hi : IsLeast { k | TakenForRun f len r k } i)
      (hp : p = (afterTaken f len r i index i).area)
      (hnodes : ∀ j, j ≤ len → nodeAt t.mem (node j) = afterTaken f len r i index j)
      (hnull : Records OffNull s t ↔ i ≠ 0)

/-- Taking a run at the root goes through its null predecessor, and at any other node it
does not. -/
theorem takeRun_searched (h : Listed s node len f t) (hspace : NodeSpace node len)
    (hlinked : WellLinked node len f) (hnot : ∀ j, j < len → (f j).last ≠ 1)
    (hlast : (f len).last = 1) (hr : required.toNat < 2 ^ 58)
    (hleast : IsLeast { k | TakenForRun f len required.toNat k } i) :
    Returns (do
      let previous ← load64 (Node.previous (node i))
      let next ← load64 (Node.next (node i))
      let index ← load64 (Node.nodeIndex previous)
      internalInitializeNode (node i) previous next (index + 1)
      markUsed required (node i) (BitVec.ofNat 64 (min required.toNat (len - i) + 1))
      load64 (Node.area (node i))) t fun p u => Searched s node len f required.toNat p u := by
  have hi : i < len := hleast.1.1
  apply (h.load_previous hspace (by omega)).bind
  rintro previous t1 ⟨rfl, h1⟩
  apply (h1.load_next hspace (by omega)).bind
  rintro next t2 ⟨rfl, h2⟩
  cases i with
  | zero =>
    have hthrough : (Node.nodeIndex (f 0).previous).toNat < 48 := by
      rw [hlinked.first]
      decide
    rw [returns_bind, returns_load64]
    have h3 : Listed (t2.note (.read (Node.nodeIndex (f 0).previous) 8)) node len f
        (t2.note (.read (Node.nodeIndex (f 0).previous) 8)) := Listed.start h2.nodes
    apply (takeRun_listed h3 hspace hlinked hnot hlast hi hr _).mono
    rintro p u ⟨hp, hu⟩
    refine Searched.taken 0 _ hleast hp hu.nodes ⟨fun hoff => ?_, fun hne => absurd rfl hne⟩
    exact absurd hoff (h2.offNull.not_offNull hthrough hu.offNull)
  | succ j =>
    have hload : Returns (load64 (Node.nodeIndex (f (j + 1)).previous)) t2 fun v u =>
        v = (f j).nodeIndex ∧ Listed s node len f u := by
      rw [hlinked.previous j (by omega)]
      exact h2.load_nodeIndex hspace (by omega)
    apply hload.bind
    rintro index t3 ⟨rfl, h3⟩
    apply (takeRun_listed h3 hspace hlinked hnot hlast hi hr _).mono
    rintro p u ⟨hp, hu⟩
    exact Searched.taken (j + 1) _ hleast hp hu.nodes
      ⟨fun _ => Nat.succ_ne_zero j, fun _ => hu.offNull⟩

end Loops

theorem internalMmWorstCaseMalloc_spec {s : Machine σ} {arena : Ptr} {node : Nat → Ptr}
    {len : Nat} {f : Nat → NodeFields} (h : ArenaList s.mem arena node len f)
    (size : BitVec 64) :
    Returns (internalMmWorstCaseMalloc arena size) s fun p t =>
      Searched s node len f (requiredNodes size) p t := by
  have hspace := h.space
  have hr : (size / allocBlockSize + 1).toNat < 2 ^ 58 := by
    rw [toNat_requiredNodes]
    exact requiredNodes_lt size
  have hpos : 0 < (size / allocBlockSize + 1).toNat := by
    rw [toNat_requiredNodes]
    exact requiredNodes_pos size
  have habove : 48 ≤ (Arena.root arena).toNat := by
    have hend := h.spans.1
    have hbase := h.above
    rw [Arena.root, BitVec.toNat_add]
    simp only [BitVec.toNat_ofNat]
    omega
  rw [internalMmWorstCaseMalloc, ← toNat_requiredNodes size]
  generalize size / allocBlockSize + 1 = required at hr hpos ⊢
  rw [returns_bind, returns_load64, h.root]
  refine returns_iterate (fun k loc u => ∃ i, i ≤ len ∧ loc = node i ∧ k = len - i ∧
      Listed s node len f u ∧ ∀ j, j < i → ¬ TakenForRun f len required.toNat j)
    ?_ loopBound len _ _ ?_
    ⟨0, by omega, rfl, rfl, (Listed.start h.nodes).read _ _ habove, fun j hj => by omega⟩
  · rintro k loc u ⟨i, hi, rfl, rfl, hu, hbefore⟩
    have hon : ∀ {u'}, ¬ TakenForRun f len required.toNat i → i < len → Listed s node len f u' →
        Returns (load64 (Node.next (node i))) u' fun next t => ∃ j, j < len - i ∧
          ∃ i, i ≤ len ∧ next = node i ∧ j = len - i ∧ Listed s node len f t ∧
            ∀ j, j < i → ¬ TakenForRun f len required.toNat j := by
      intro u' hnot hlt hu'
      apply (hu'.load_next hspace hi).mono
      rintro next u1 ⟨rfl, h1⟩
      rw [h.linked.next i hlt]
      refine ⟨len - (i + 1), by omega, i + 1, hlt, rfl, rfl, h1, fun j hj => ?_⟩
      by_cases hji : j = i
      · rw [hji]
        exact hnot
      · exact hbefore j (by omega)
    apply (hu.load_last hspace hi).bind
    rintro last u1 ⟨rfl, h1⟩
    by_cases hend : i = len
    · rw [hend, h.last, if_neg (by simp), returns_pure]
      refine Searched.nothing (fun j htaken => hbefore j ?_ htaken) rfl h1
      have := htaken.1
      omega
    · have hlt : i < len := by omega
      rw [if_pos (h.notLast i hlt)]
      apply (h1.load_used hspace hi).bind
      rintro used u2 ⟨rfl, h2⟩
      by_cases hused : (f i).used = 0
      · rw [if_neg (not_not_intro hused)]
        apply (adjacentUnused_spec h2 hspace h.linked h.notLast h.last hlt hr).bind
        rintro ⟨okay, count⟩ u3 ⟨h3, ⟨htaken, he⟩ | ⟨hnot, hfalse⟩⟩
        · cases he
          have hleast : IsLeast { k | TakenForRun f len required.toNat k } i := by
            refine ⟨htaken, fun k hk => ?_⟩
            by_contra hki
            exact hbefore k (by omega) hk
          have htake := takeRun_searched h3 hspace h.linked h.notLast h.last hr hleast
          simp only [returns_bind] at htake
          simp only [if_true, returns_bind, returns_pure]
          exact htake
        · cases hfalse
          simp only [Bool.false_eq_true, if_false, returns_bind, returns_pure]
          exact hon hnot hlt h3
      · simp only [if_pos hused, returns_bind, returns_pure]
        exact hon (fun htaken => hused (htaken.2 i (by omega) (by omega) hlt)) hlt h2
  · have := hspace.length_lt
    rw [loopBound]
    omega

/-! ## First fit -/

/-- Neither the flag nor the area of a node has changed. -/
def KeepsFlagAndArea (before after : NodeFields) : Prop :=
  after.used = before.used ∧ after.area = before.area

/-- What a first-fit search owes to its caller: `p` is null where there is no run of `r`
unused nodes, and otherwise the area of the first node of the earliest one.  The nodes of that
run are used afterwards, and no other node has another flag or area. -/
structure FirstFit (f g : Nat → NodeFields) (len r : Nat) (p : Ptr) : Prop where
  null : p = 0 ↔ ∀ i, ¬ RunOfUnused f len r i
  kept : (∀ i, ¬ RunOfUnused f len r i) → ∀ j, j ≤ len → KeepsFlagAndArea (f j) (g j)
  found : ∀ i, IsLeast { k | RunOfUnused f len r k } i → p = (g i).area ∧ ∀ j, j ≤ len →
    if i ≤ j ∧ j < i + r then (g j).used ≠ 0 else KeepsFlagAndArea (f j) (g j)

/-- The search returns, does not go through a null pointer, and is a first fit. -/
def MallocFirstFit (s : Machine σ) (arena : Ptr) (node : Nat → Ptr) (len : Nat)
    (f : Nat → NodeFields) (size : BitVec 64) : Prop :=
  Returns (internalMmWorstCaseMalloc arena size) s fun p t => Records OffNull s t ∧
    FirstFit f (fun j => nodeAt t.mem (node j)) len (requiredNodes size) p

/-- A run that the last node cuts short by one node, and that gets the null pointer its first
node has already. -/
def TakenForNull (f : Nat → NodeFields) (len r : Nat) : Prop :=
  ∃ i, i ≠ 0 ∧ IsLeast { k | TakenForRun f len r k } i ∧ i + r = len + 1 ∧
    (f (i - 1)).area + 1 = 0 ∧ (f i).area = 0

section FirstFit

variable {f g : Nat → NodeFields} {len r i : Nat} {index : BitVec 64}

/-- The node before the last one is taken whenever it is unused. -/
theorem takenForRun_none_iff (hr : 0 < r) :
    (∀ i, ¬ TakenForRun f len r i) ↔
      (∀ i, ¬ RunOfUnused f len r i) ∧ (len = 0 ∨ (f (len - 1)).used ≠ 0) := by
  constructor
  · intro hnone
    refine ⟨fun i hrun => hnone i (hrun.taken hr), ?_⟩
    by_contra hlast
    rw [not_or, not_not] at hlast
    refine hnone (len - 1) ⟨by omega, fun j h1 _ h3 => ?_⟩
    rw [show j = len - 1 by omega]
    exact hlast.2
  · rintro ⟨hnone, hlast⟩ i htaken
    have hlt := htaken.1
    by_cases hend : i + r ≤ len
    · exact hnone i (htaken.run hend)
    · rcases hlast with hlast | hlast
      · omega
      · exact hlast (htaken.2 (len - 1) (by omega) (by omega) (by omega))

/-- A run that is taken before it is complete is the only one there could be. -/
theorem no_run_of_cut (hleast : IsLeast { k | TakenForRun f len r k } i) (hr : 0 < r)
    (hcut : len < i + r) (k : Nat) : ¬ RunOfUnused f len r k := by
  intro hrun
  have hle : i ≤ k := hleast.2 (hrun.taken hr)
  have hend := hrun.1
  omega

theorem afterTaken_used_complete (hend : i + r ≤ len) :
    (afterTaken f len r i index i).used = 0 := by
  rw [afterTaken, show min (r - (min r (len - i) + 1)) (len - i) = 0 by omega, marked_zero,
    initialized_self_used]

theorem afterTaken_used_cut (hlt : i < len) (hcut : len + 1 < i + r) :
    (afterTaken f len r i index i).used = 1 := by
  rw [afterTaken, marked, if_pos (by omega)]

theorem not_firstFit_of_complete (hleast : IsLeast { k | TakenForRun f len r k } i)
    (hr : 0 < r) (hend : i + r ≤ len) (hg : g i = afterTaken f len r i index i) (p : Ptr) :
    ¬ FirstFit f g len r p := by
  intro hfit
  have hrun : IsLeast { k | RunOfUnused f len r k } i :=
    ⟨hleast.1.run hend, fun k hk => hleast.2 (hk.taken hr)⟩
  have hmarked := (hfit.found i hrun).2 i (by omega)
  rw [if_pos (by omega), hg, afterTaken_used_complete hend] at hmarked
  exact hmarked rfl

/-- A cut run is harmless only if it is one node short and yields a null pointer. -/
theorem firstFit_of_cut_iff (hleast : IsLeast { k | TakenForRun f len r k } i) (hr : 0 < r)
    (hcut : len < i + r) (hi : i ≠ 0)
    (hg : ∀ j, j ≤ len → g j = afterTaken f len r i index j) :
    FirstFit f g len r (afterTaken f len r i index i).area ↔
      i + r = len + 1 ∧ (f (i - 1)).area + 1 = 0 ∧ (f i).area = 0 := by
  have hlt := hleast.1.1
  have hunused : (f i).used = 0 := hleast.1.2 i (by omega) (by omega) hlt
  have hnone := no_run_of_cut hleast hr hcut
  constructor
  · intro hfit
    have hnull := hfit.null.mpr hnone
    obtain ⟨hused, harea⟩ := hfit.kept hnone i (by omega)
    rw [hg i (by omega)] at hused harea
    refine ⟨?_, ?_, ?_⟩
    · by_contra hne
      rw [afterTaken_used_cut hlt (by omega), hunused] at hused
      exact absurd hused (by decide)
    · rw [← afterTaken_area f len r i index hi]
      exact hnull
    · rw [← harea]
      exact hnull
  · rintro ⟨hshort, hnull, harea⟩
    have hafter : afterTaken f len r i index = initialized f i index := by
      rw [afterTaken, show min (r - (min r (len - i) + 1)) (len - i) = 0 by omega, marked_zero]
    refine ⟨⟨fun _ => hnone, fun _ => ?_⟩, fun _ j hj => ?_, fun k hk => ?_⟩
    · rw [afterTaken_area f len r i index hi]
      exact hnull
    · rw [hg j hj, KeepsFlagAndArea]
      by_cases hji : j = i
      · rw [hji, afterTaken_area f len r i index hi, hnull, harea, hafter, initialized_self_used,
          hunused]
        exact ⟨rfl, rfl⟩
      · rw [hafter, initialized_of_ne hji]
        exact ⟨rfl, rfl⟩
    · exact absurd hk.1 (hnone k)

end FirstFit

section Malloc

variable {s : Machine σ} {arena : Ptr} {node : Nat → Ptr} {len : Nat} {f : Nat → NodeFields}

/-- Where there is a run, the search leaves its first node unused. -/
theorem not_mallocFirstFit_of_run (h : ArenaList s.mem arena node len f) {size : BitVec 64}
    {i : Nat} (hrun : RunOfUnused f len (requiredNodes size) i) :
    ¬ MallocFirstFit s arena node len f size := by
  intro hfit
  have hr := requiredNodes_pos size
  obtain ⟨p, t, he, hsearched⟩ := internalMmWorstCaseMalloc_spec h size
  have hpost := hfit.of_eq he
  cases hsearched with
  | nothing hnone => exact hnone i (hrun.taken hr)
  | taken k index hleast hp hnodes hnull =>
    have hend := hrun.1
    have hle : k ≤ i := hleast.2 (hrun.taken hr)
    exact not_firstFit_of_complete hleast hr (by omega) (hnodes k (by omega)) p hpost.2

theorem mallocFirstFit_iff_cut (h : ArenaList s.mem arena node len f) (size : BitVec 64) :
    MallocFirstFit s arena node len f size ↔
      ((∀ i, ¬ TakenForRun f len (requiredNodes size) i) ∨
        TakenForNull f len (requiredNodes size)) := by
  have hr := requiredNodes_pos size
  obtain ⟨p, t, he, hsearched⟩ := internalMmWorstCaseMalloc_spec h size
  have hpost : MallocFirstFit s arena node len f size ↔ Records OffNull s t ∧
      FirstFit f (fun j => nodeAt t.mem (node j)) len (requiredNodes size) p :=
    ⟨fun hfit => hfit.of_eq he, fun hfit => returns_of_eq he hfit⟩
  rw [hpost]
  cases hsearched with
  | nothing hnone hp ht =>
    have hnorun : ∀ i, ¬ RunOfUnused f len (requiredNodes size) i :=
      fun i hrun => hnone i (hrun.taken hr)
    refine ⟨fun _ => Or.inl hnone, fun _ => ⟨ht.offNull, ⟨fun _ => hnorun, fun _ => hp⟩, ?_, ?_⟩⟩
    · intro _ j hj
      rw [ht.nodes j hj]
      exact ⟨rfl, rfl⟩
    · intro i hi
      exact absurd hi.1 (hnorun i)
  | taken i index hleast hp hnodes hnull =>
    by_cases hend : i + requiredNodes size ≤ len
    · constructor
      · rintro ⟨-, hfit⟩
        exact absurd hfit (not_firstFit_of_complete hleast hr hend (hnodes i (by omega)) p)
      · rintro (hnone | ⟨k, -, hk, hshort, -⟩)
        · exact absurd hleast.1 (hnone i)
        · rw [hleast.unique hk] at hend
          omega
    · rw [hp, hnull]
      constructor
      · rintro ⟨hi, hfit⟩
        exact Or.inr ⟨i, hi, hleast, (firstFit_of_cut_iff hleast hr (by omega) hi hnodes).mp hfit⟩
      · rintro (hnone | ⟨k, hk, hkleast, hcut⟩)
        · exact absurd hleast.1 (hnone i)
        · rw [← hleast.unique hkleast] at hk hcut
          exact ⟨hk, (firstFit_of_cut_iff hleast hr (by omega) hk hnodes).mpr hcut⟩

/-- The search is a first fit exactly where it finds nothing to take, there being no run and no
unused node before the last one, or takes a null pointer where one was. -/
theorem internalMmWorstCaseMalloc_firstFit_iff (h : ArenaList s.mem arena node len f)
    (size : BitVec 64) :
    MallocFirstFit s arena node len f size ↔
      (((∀ i, ¬ RunOfUnused f len (requiredNodes size) i) ∧
          (len = 0 ∨ (f (len - 1)).used ≠ 0)) ∨
        TakenForNull f len (requiredNodes size)) := by
  rw [mallocFirstFit_iff_cut h size, takenForRun_none_iff (requiredNodes_pos size)]

end Malloc

/-- An arena at `0x1000` with three nodes: one that is used, one that is not, and the last. -/
def smallArena : Machine Unit where
  mem :=
    let m := write64 (fun _ => 0) 0x1010 0x2000
    let m := write64 (write64 (write32 m 0x2000 1) 0x2008 0x5000) 0x2020 0x2030
    let m := write64 (write64 (write64 m 0x2038 0x5080) 0x2048 0x2000) 0x2050 0x2060
    write64 (write32 m 0x2064 1) 0x2078 0x2030
  log := []
  statics := ()

def smallArenaNode (i : Nat) : Ptr := BitVec.ofNat 64 (0x2000 + 48 * i)

theorem smallArena_list : ArenaList smallArena.mem 0x1000 smallArenaNode 2
    (fun i => nodeAt smallArena.mem (smallArenaNode i)) where
  space :=
    { spans := by unfold Spans; decide
      above := by decide
      apart := by
        have hphys : ∀ i, i ≤ 2 → phys (smallArenaNode i) = 0x2000 + 48 * i := by decide
        intro i j hi hj hne
        rw [hphys i hi, hphys j hj]
        omega }
  linked := ⟨by decide, by decide, by decide⟩
  nodes _ _ := rfl
  notLast := by decide
  last := by decide
  spans := by unfold Spans; decide
  above := by decide
  root := by decide

theorem internalMmWorstCaseMalloc_firstFit_iff_small :
    MallocFirstFit smallArena 0x1000 smallArenaNode 2
        (fun i => nodeAt smallArena.mem (smallArenaNode i)) 16 ↔
      (((∀ i, ¬ RunOfUnused (fun i => nodeAt smallArena.mem (smallArenaNode i)) 2
            (requiredNodes 16) i) ∧
          (2 = 0 ∨ (nodeAt smallArena.mem (smallArenaNode (2 - 1))).used ≠ 0)) ∨
        TakenForNull (fun i => nodeAt smallArena.mem (smallArenaNode i)) 2 (requiredNodes 16)) :=
  internalMmWorstCaseMalloc_firstFit_iff smallArena_list 16

/-- Sixteen bytes fit in the unused node, which is still unused afterwards. -/
theorem smallArena_not_firstFit :
    ¬ MallocFirstFit smallArena 0x1000 smallArenaNode 2
        (fun i => nodeAt smallArena.mem (smallArenaNode i)) 16 :=
  not_mallocFirstFit_of_run smallArena_list (i := 1) ⟨by decide, by
    intro j h1 h2
    have hj : j = 1 := by
      rw [requiredNodes, show (16 : BitVec 64).toNat / 128 + 1 = 1 from rfl] at h2
      omega
    rw [hj]
    decide⟩

end FeralKernel
