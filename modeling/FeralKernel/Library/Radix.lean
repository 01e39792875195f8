import Mathlib.Data.List.Induction

/-!
# Radix trees stored in tables

A store gives, for every table and slot, the entry there if one is present.  An
entry of a table above the last level names the table below it through `child`;
an entry of the last level is a value.  A path is the list of slots taken from
the root, and `depth` is the number of levels above the last one.

A table is `Sole` when it is reached along one path, and a tree is `Unshared` when
every table is.  A write to a slot of such a table changes what a single path reads,
which is what the three mutations need.  `Grafted` hangs a fresh empty table below a reached one and
changes no value.  `Planted` writes a value at the last level and changes that
value alone.  `Pruned` clears a slot above the last level and drops what lies
below it.  All speak of the reached tables only, so that a store read out of raw
memory can satisfy them.
-/

namespace Verif
namespace Radix

variable {τ ι ε : Type}

/-- The entry present in a slot of a table. -/
abbrev Store (τ ι ε : Type) : Type := τ → ι → Option ε

section Follow

variable (child : ε → τ)

/-- The table reached from `t` along a path. -/
def follow (m : Store τ ι ε) : τ → List ι → Option τ
  | t, [] => some t
  | t, i :: p => (m t i).bind fun e => follow m (child e) p

/-- The value in slot `i` of the table reached along `p`. -/
def lookup (m : Store τ ι ε) (root : τ) (p : List ι) (i : ι) : Option ε :=
  (follow child m root p).bind fun t => m t i

/-- No table is reached along two paths. -/
def Unshared (depth : Nat) (m : Store τ ι ε) (root : τ) : Prop :=
  ∀ p q t, p.length ≤ depth → q.length ≤ depth →
    follow child m root p = some t → follow child m root q = some t → p = q

/-- `t` is reached along no path but `p`. -/
def Sole (depth : Nat) (m : Store τ ι ε) (root : τ) (p : List ι) (t : τ) : Prop :=
  ∀ q, q.length ≤ depth → follow child m root q = some t → q = p

/-- `t` is reached along some path that ends at the last level or above. -/
def Reached (depth : Nat) (m : Store τ ι ε) (root t : τ) : Prop :=
  ∃ p, p.length ≤ depth ∧ follow child m root p = some t

end Follow

variable {child : ε → τ} {m m' : Store τ ι ε} {root t c : τ} {depth : Nat}

theorem follow_append (t : τ) (p q : List ι) :
    follow child m t (p ++ q) = (follow child m t p).bind fun u => follow child m u q := by
  induction p generalizing t with
  | nil => rfl
  | cons i p ih =>
    simp only [List.cons_append, follow]
    cases m t i with
    | none => rfl
    | some e => exact ih (child e)

theorem follow_snoc (t : τ) (p : List ι) (i : ι) :
    follow child m t (p ++ [i]) = (lookup child m t p i).map child := by
  rw [follow_append, lookup]
  cases follow child m t p with
  | none => rfl
  | some u =>
    simp only [follow, Option.bind_some]
    cases m u i <;> rfl

theorem lookup_of_follow {p : List ι} (h : follow child m root p = some t) (i : ι) :
    lookup child m root p i = m t i := by
  rw [lookup, h]
  rfl

/-- A path that extends an unreached one is unreached. -/
theorem follow_none_append {p q : List ι} (h : follow child m root p = none)
    (hpq : p <+: q) : follow child m root q = none := by
  obtain ⟨r, rfl⟩ := hpq
  rw [follow_append, h]
  rfl

/-- Where a way ends, nothing is reached through the slot. -/
theorem follow_none_of_free {p q : List ι} {i : ι} (ht : follow child m root p = some t)
    (hfree : m t i = none) (hpq : p ++ [i] <+: q) : follow child m root q = none := by
  refine follow_none_append ?_ hpq
  rw [follow_snoc, lookup_of_follow ht, hfree]
  rfl

/-- A way ends in one place: two free slots on it are one. -/
theorem path_unique_of_free {p q w : List ι} {i j : ι} {u : τ} (hp : p ++ [i] <+: w)
    (ht : follow child m root p = some t) (hi : m t i = none) (hq : q ++ [j] <+: w)
    (hu : follow child m root q = some u) (hj : m u j = none) : q = p := by
  by_contra hne
  rcases List.prefix_or_prefix_of_prefix hq hp with hle | hle
  · rcases List.prefix_concat_iff.mp hle with heq | hle
    · exact hne (List.append_inj_left' heq rfl)
    · rw [follow_none_of_free hu hj hle] at ht
      cases ht
  · rcases List.prefix_concat_iff.mp hle with heq | hle
    · exact hne (List.append_inj_left' heq rfl).symm
    · rw [follow_none_of_free ht hi hle] at hu
      cases hu

/-- Two slots on one way, at the same depth, are the same. -/
theorem prefix_snoc_inj {p q w : List ι} {i j : ι} (hp : p ++ [i] <+: w) (hq : q ++ [j] <+: w)
    (h : q = p) : j = i := by
  subst h
  have hle := List.prefix_of_prefix_length_le hq hp (by simp)
  rw [List.prefix_append_right_inj] at hle
  exact List.head_eq_of_cons_eq (hle.eq_of_length rfl)

/-- When the free slot of a way has been filled, no slot on it is free in a table that was
reached before. -/
theorem filled_on_way {p q w : List ι} {i j : ι} {u : τ} (hp : p ++ [i] <+: w)
    (ht : follow child m root p = some t) (hi : m t i = none) (hfilled : m' t i ≠ none)
    (hframe : u ≠ t ∨ j ≠ i → m' u j = m u j) (hq : q ++ [j] <+: w)
    (hu : follow child m root q = some u) : m' u j ≠ none := by
  by_cases hslot : u = t ∧ j = i
  · rw [hslot.1, hslot.2]
    exact hfilled
  · rw [hframe (not_and_or.mp hslot)]
    intro hj
    have hqp := path_unique_of_free hp ht hi hq hu hj
    rw [hqp, ht] at hu
    exact hslot ⟨(Option.some.inj hu).symm, prefix_snoc_inj hp hq hqp⟩

/-- Stores that agree on the reached tables reach the same tables. -/
theorem follow_congr (h : ∀ u i, Reached child depth m root u → m' u i = m u i) (p : List ι)
    (hp : p.length ≤ depth) : follow child m' root p = follow child m root p := by
  induction p using List.reverseRecOn with
  | nil => rfl
  | append_singleton p i ih =>
    rw [List.length_append, List.length_singleton] at hp
    rw [follow_snoc, follow_snoc, lookup, lookup, ih (by omega)]
    cases hu : follow child m root p with
    | none => rfl
    | some u => rw [Option.bind_some, Option.bind_some, h u i ⟨p, by omega, hu⟩]

theorem lookup_congr (h : ∀ u i, Reached child depth m root u → m' u i = m u i) (p : List ι)
    (hp : p.length ≤ depth) (i : ι) : lookup child m' root p i = lookup child m root p i := by
  rw [lookup, lookup, follow_congr h p hp]
  cases hu : follow child m root p with
  | none => rfl
  | some u => exact h u i ⟨p, hp, hu⟩

/-- Below an empty root nothing is reached. -/
theorem follow_empty (hroot : ∀ i, m root i = none) {p : List ι} (hp : p ≠ []) :
    follow child m root p = none := by
  cases p with
  | nil => exact absurd rfl hp
  | cons i p => simp only [follow, hroot i, Option.bind_none]

theorem lookup_empty (hroot : ∀ i, m root i = none) (p : List ι) (i : ι) :
    lookup child m root p i = none := by
  cases p with
  | nil => exact hroot i
  | cons j p => rw [lookup, follow_empty hroot (by simp)]; rfl

theorem unshared_empty (hroot : ∀ i, m root i = none) : Unshared child depth m root := by
  intro p q t _ _ hp hq
  have hnil : ∀ r : List ι, follow child m root r = some t → r = [] := by
    intro r hr
    by_contra hne
    rw [follow_empty hroot hne] at hr
    cases hr
  rw [hnil p hp, hnil q hq]

theorem Unshared.sole {p : List ι} (hu : Unshared child depth m root) (hp : p.length ≤ depth)
    (ht : follow child m root p = some t) : Sole child depth m root p t := fun q hq hqt =>
  hu q p t hq hp hqt ht

/-- A table of another level is another table. -/
theorem Sole.ne_of_length {p q : List ι} {u : τ} (hs : Sole child depth m root p t)
    (hq : q.length ≤ depth) (hu : follow child m root q = some u) (hne : q.length ≠ p.length) :
    u ≠ t := by
  rintro rfl
  exact hne (congrArg List.length (hs q hq hu))

/-! ## Hanging a fresh table below a reached one -/

/-- `m'` is `m` with the empty table `c` hung at slot `i` of `t`, as far as the
tables that `m` reaches can tell. -/
structure Grafted (child : ε → τ) (depth : Nat) (m m' : Store τ ι ε) (root t : τ) (i : ι)
    (e : ε) : Prop where
  free : m t i = none
  fresh : ¬ Reached child depth m root (child e)
  entry : m' t i = some e
  empty : ∀ j, m' (child e) j = none
  frame : ∀ u j, Reached child depth m root u → (u ≠ t ∨ j ≠ i) → m' u j = m u j

/-- What a graft reaches: the new table along the new path, and everything else
as before. -/
theorem Grafted.follow {i : ι} {e : ε} {p : List ι} (h : Grafted child depth m m' root t i e)
    (hs : Sole child depth m root p t) (hp : p.length < depth)
    (ht : follow child m root p = some t) [DecidableEq ι] (q : List ι) (hq : q.length ≤ depth) :
    Radix.follow child m' root q =
      if q = p ++ [i] then some (child e) else Radix.follow child m root q := by
  induction q using List.reverseRecOn with
  | nil =>
    have hne : ([] : List ι) ≠ p ++ [i] := by simp
    rw [if_neg hne]
    rfl
  | append_singleton q j ih =>
    have hq' : q.length < depth := by
      rw [List.length_append, List.length_singleton] at hq
      omega
    have hold : Radix.follow child m root (p ++ [i]) = none := by
      rw [follow_snoc, lookup_of_follow ht, h.free]
      rfl
    rw [follow_snoc, lookup, ih (by omega)]
    by_cases hpq : q = p ++ [i]
    · -- below the new table, which is empty
      have hne : q ++ [j] ≠ p ++ [i] := by rw [hpq]; simp
      rw [if_pos hpq, if_neg hne, Option.bind_some, h.empty, Option.map_none,
        follow_none_append hold ⟨[j], by rw [hpq]⟩]
    · rw [if_neg hpq]
      cases hu' : Radix.follow child m root q with
      | none =>
        have hne : q ++ [j] ≠ p ++ [i] := by
          intro he
          obtain ⟨rfl, -⟩ := List.append_inj' he rfl
          rw [ht] at hu'
          cases hu'
        rw [if_neg hne, follow_snoc, lookup, hu']
        rfl
      | some u =>
        rw [Option.bind_some]
        by_cases hslot : u = t ∧ j = i
        · obtain ⟨rfl, rfl⟩ := hslot
          have hqp : q = p := hs q (by omega) hu'
          rw [if_pos (by rw [hqp]), h.entry]
          rfl
        · have hne : q ++ [j] ≠ p ++ [i] := by
            intro he
            obtain ⟨rfl, hj⟩ := List.append_inj' he rfl
            rw [ht] at hu'
            exact hslot ⟨(Option.some.inj hu').symm, by simpa using hj⟩
          have hframe : m' u j = m u j :=
            h.frame u j ⟨q, by omega, hu'⟩ (not_and_or.mp hslot)
          rw [if_neg hne, hframe, follow_snoc, lookup_of_follow hu']

theorem Grafted.unshared {i : ι} {e : ε} {p : List ι} (h : Grafted child depth m m' root t i e)
    (hu : Unshared child depth m root) (hp : p.length < depth)
    (ht : Radix.follow child m root p = some t) : Unshared child depth m' root := by
  classical
  intro q r u hq hr hqu hru
  have hs := hu.sole (by omega) ht
  rw [h.follow hs hp ht q hq] at hqu
  rw [h.follow hs hp ht r hr] at hru
  by_cases h1 : q = p ++ [i]
  · by_cases h2 : r = p ++ [i]
    · rw [h1, h2]
    · rw [if_pos h1] at hqu
      rw [if_neg h2, ← Option.some.inj hqu] at hru
      exact absurd ⟨r, hr, hru⟩ h.fresh
  · rw [if_neg h1] at hqu
    by_cases h2 : r = p ++ [i]
    · rw [if_pos h2] at hru
      rw [← Option.some.inj hru] at hqu
      exact absurd ⟨q, hq, hqu⟩ h.fresh
    · rw [if_neg h2] at hru
      exact hu q r u hq hr hqu hru

/-- The new table is reached along the new path only. -/
theorem Grafted.sole {i : ι} {e : ε} {p : List ι} (h : Grafted child depth m m' root t i e)
    (hs : Sole child depth m root p t) (hp : p.length < depth)
    (ht : Radix.follow child m root p = some t) :
    Sole child depth m' root (p ++ [i]) (child e) := by
  classical
  intro q hq hqc
  rw [h.follow hs hp ht q hq] at hqc
  by_contra hne
  rw [if_neg hne] at hqc
  exact h.fresh ⟨q, hq, hqc⟩

/-- An entry that was there is still there. -/
theorem Grafted.keeps {i : ι} {e e' : ε} {p q : List ι} {j : ι}
    (h : Grafted child depth m m' root t i e) (hs : Sole child depth m root p t)
    (hp : p.length < depth) (ht : Radix.follow child m root p = some t) (hq : q.length ≤ depth)
    (he : Radix.lookup child m root q j = some e') :
    Radix.lookup child m' root q j = some e' := by
  classical
  rw [Radix.lookup, Option.bind_eq_some_iff] at he
  obtain ⟨u, hu, he⟩ := he
  have hne : q ≠ p ++ [i] := by
    rintro rfl
    rw [follow_snoc, lookup_of_follow ht, h.free] at hu
    cases hu
  have hslot : u ≠ t ∨ j ≠ i := by
    by_contra hboth
    rw [not_or, not_not, not_not] at hboth
    rw [hboth.1, hboth.2, h.free] at he
    cases he
  rw [Radix.lookup, h.follow hs hp ht q hq, if_neg hne, hu, Option.bind_some,
    h.frame u j ⟨q, hq, hu⟩ hslot, he]

/-- A graft adds no value. -/
theorem Grafted.lookup {i : ι} {e : ε} {p : List ι} (h : Grafted child depth m m' root t i e)
    (hs : Sole child depth m root p t) (hp : p.length < depth)
    (ht : Radix.follow child m root p = some t) (q : List ι) (hq : q.length = depth) (j : ι) :
    Radix.lookup child m' root q j = Radix.lookup child m root q j := by
  classical
  rw [Radix.lookup, Radix.lookup, h.follow hs hp ht q (by omega)]
  by_cases hpq : q = p ++ [i]
  · have hold : Radix.follow child m root (p ++ [i]) = none := by
      rw [follow_snoc, lookup_of_follow ht, h.free]
      rfl
    rw [if_pos hpq, Option.bind_some, h.empty, hpq, hold]
    rfl
  · rw [if_neg hpq]
    cases hu' : Radix.follow child m root q with
    | none => rfl
    | some u =>
      refine h.frame u j ⟨q, by omega, hu'⟩ (Or.inl ?_)
      exact hs.ne_of_length (by omega) hu' (by omega)

/-! ## Writing a value at the last level -/

/-- `m'` is `m` with the value `e` in slot `i` of `t`, as far as the tables that
`m` reaches can tell. -/
structure Planted (child : ε → τ) (depth : Nat) (m m' : Store τ ι ε) (root t : τ) (i : ι)
    (e : ε) : Prop where
  entry : m' t i = some e
  frame : ∀ u j, Reached child depth m root u → (u ≠ t ∨ j ≠ i) → m' u j = m u j

theorem Planted.follow {i : ι} {e : ε} {p : List ι} (h : Planted child depth m m' root t i e)
    (hs : Sole child depth m root p t) (hp : p.length = depth) (q : List ι)
    (hq : q.length ≤ depth) :
    Radix.follow child m' root q = Radix.follow child m root q := by
  induction q using List.reverseRecOn with
  | nil => rfl
  | append_singleton q j ih =>
    have hq' : q.length < depth := by
      rw [List.length_append, List.length_singleton] at hq
      omega
    rw [follow_snoc, follow_snoc, Radix.lookup, Radix.lookup, ih (by omega)]
    cases hu' : Radix.follow child m root q with
    | none => rfl
    | some u =>
      rw [Option.bind_some, Option.bind_some]
      refine congrArg _ (h.frame u j ⟨q, by omega, hu'⟩ (Or.inl ?_))
      exact hs.ne_of_length (by omega) hu' (by omega)

theorem Planted.unshared {i : ι} {e : ε} {p : List ι} (h : Planted child depth m m' root t i e)
    (hu : Unshared child depth m root) (hp : p.length = depth)
    (ht : Radix.follow child m root p = some t) : Unshared child depth m' root := by
  intro q r u hq hr hqu hru
  have hs := hu.sole (by omega) ht
  rw [h.follow hs hp q hq] at hqu
  rw [h.follow hs hp r hr] at hru
  exact hu q r u hq hr hqu hru

/-- One value changes. -/
theorem Planted.lookup {i : ι} {e : ε} {p : List ι} (h : Planted child depth m m' root t i e)
    (hs : Sole child depth m root p t) (hp : p.length = depth)
    (ht : Radix.follow child m root p = some t) [DecidableEq ι] (q : List ι)
    (hq : q.length = depth) (j : ι) :
    Radix.lookup child m' root q j =
      if q = p ∧ j = i then some e else Radix.lookup child m root q j := by
  rw [Radix.lookup, Radix.lookup, h.follow hs hp q (by omega)]
  by_cases hslot : q = p ∧ j = i
  · obtain ⟨rfl, rfl⟩ := hslot
    rw [if_pos ⟨rfl, rfl⟩, ht, Option.bind_some, h.entry]
  · rw [if_neg hslot]
    cases hu' : Radix.follow child m root q with
    | none => rfl
    | some u =>
      refine h.frame u j ⟨q, by omega, hu'⟩ ?_
      by_cases hut : u = t
      · have hqp : q = p := hs q (by omega) (hut ▸ hu')
        exact Or.inr fun hj => hslot ⟨hqp, hj⟩
      · exact Or.inl hut

/-- An entry of an upper level, or of another slot, is still there. -/
theorem Planted.keeps {i : ι} {e e' : ε} {p q : List ι} {j : ι}
    (h : Planted child depth m m' root t i e) (hs : Sole child depth m root p t)
    (hp : p.length = depth) (hfree : m t i = none) (hq : q.length ≤ depth)
    (he : Radix.lookup child m root q j = some e') :
    Radix.lookup child m' root q j = some e' := by
  rw [Radix.lookup, Option.bind_eq_some_iff] at he
  obtain ⟨u, hu, he⟩ := he
  have hslot : u ≠ t ∨ j ≠ i := by
    by_contra hboth
    rw [not_or, not_not, not_not] at hboth
    rw [hboth.1, hboth.2, hfree] at he
    cases he
  rw [Radix.lookup, h.follow hs hp q hq, hu, Option.bind_some, h.frame u j ⟨q, hq, hu⟩ hslot, he]

/-! ## Clearing a slot above the last level -/

/-- `m'` is `m` with slot `i` of `t` cleared, as far as the tables that `m` reaches
can tell. -/
structure Pruned (child : ε → τ) (depth : Nat) (m m' : Store τ ι ε) (root t : τ) (i : ι) :
    Prop where
  entry : m' t i = none
  frame : ∀ u j, Reached child depth m root u → (u ≠ t ∨ j ≠ i) → m' u j = m u j

/-- What is left: the paths that do not go through the cleared slot. -/
theorem Pruned.follow {i : ι} {p : List ι} (h : Pruned child depth m m' root t i)
    (hu : Unshared child depth m root) (hp : p.length ≤ depth)
    (ht : Radix.follow child m root p = some t) [DecidableEq ι] (q : List ι)
    (hq : q.length ≤ depth) :
    Radix.follow child m' root q =
      if p ++ [i] <+: q then none else Radix.follow child m root q := by
  induction q using List.reverseRecOn with
  | nil =>
    have hne : ¬ p ++ [i] <+: [] := by simp
    rw [if_neg hne]
    rfl
  | append_singleton q j ih =>
    have hq' : q.length < depth := by
      rw [List.length_append, List.length_singleton] at hq
      omega
    rw [follow_snoc, Radix.lookup, ih (by omega)]
    by_cases hpq : p ++ [i] <+: q
    · rw [if_pos hpq, if_pos (hpq.trans (List.prefix_append q [j]))]
      rfl
    · rw [if_neg hpq]
      have hsnoc : p ++ [i] <+: q ++ [j] ↔ q = p ∧ j = i := by
        rw [List.prefix_concat_iff, or_iff_left hpq]
        constructor
        · intro he
          obtain ⟨hqp, hji⟩ := List.append_inj' he rfl
          exact ⟨hqp.symm, by simpa using hji.symm⟩
        · intro he
          rw [he.1, he.2]
      cases hu' : Radix.follow child m root q with
      | none =>
        have hne : ¬ (q = p ∧ j = i) := by
          intro he
          rw [he.1, ht] at hu'
          cases hu'
        rw [if_neg (fun hpre => hne (hsnoc.mp hpre)), follow_snoc, Radix.lookup, hu']
        rfl
      | some u =>
        rw [Option.bind_some]
        by_cases hslot : u = t ∧ j = i
        · obtain ⟨rfl, rfl⟩ := hslot
          have hqp : q = p := hu q p u (by omega) hp hu' ht
          rw [if_pos (hsnoc.mpr ⟨hqp, rfl⟩), h.entry]
          rfl
        · have hne : ¬ (q = p ∧ j = i) := by
            intro he
            rw [he.1, ht] at hu'
            exact hslot ⟨(Option.some.inj hu').symm, he.2⟩
          have hframe : m' u j = m u j :=
            h.frame u j ⟨q, by omega, hu'⟩ (not_and_or.mp hslot)
          rw [if_neg (fun hpre => hne (hsnoc.mp hpre)), hframe, follow_snoc, lookup_of_follow hu']

theorem Pruned.unshared {i : ι} {p : List ι} (h : Pruned child depth m m' root t i)
    (hu : Unshared child depth m root) (hp : p.length ≤ depth)
    (ht : Radix.follow child m root p = some t) : Unshared child depth m' root := by
  classical
  have hold : ∀ q u, q.length ≤ depth → Radix.follow child m' root q = some u →
      Radix.follow child m root q = some u := by
    intro q u hq hqu
    rw [h.follow hu hp ht q hq] at hqu
    by_cases hpq : p ++ [i] <+: q
    · rw [if_pos hpq] at hqu
      cases hqu
    · rw [if_neg hpq] at hqu
      exact hqu
  intro q r u hq hr hqu hru
  exact hu q r u hq hr (hold q u hq hqu) (hold r u hr hru)

theorem Pruned.lookup {i : ι} {p : List ι} (h : Pruned child depth m m' root t i)
    (hu : Unshared child depth m root) (hp : p.length < depth)
    (ht : Radix.follow child m root p = some t) [DecidableEq ι] (q : List ι)
    (hq : q.length = depth) (j : ι) :
    Radix.lookup child m' root q j =
      if p ++ [i] <+: q then none else Radix.lookup child m root q j := by
  rw [Radix.lookup, Radix.lookup, h.follow hu (by omega) ht q (by omega)]
  by_cases hpq : p ++ [i] <+: q
  · rw [if_pos hpq, if_pos hpq]
    rfl
  · rw [if_neg hpq, if_neg hpq]
    cases hu' : Radix.follow child m root q with
    | none => rfl
    | some u =>
      refine h.frame u j ⟨q, by omega, hu'⟩ (Or.inl ?_)
      exact (hu.sole (by omega) ht).ne_of_length (by omega) hu' (by omega)

end Radix
end Verif
