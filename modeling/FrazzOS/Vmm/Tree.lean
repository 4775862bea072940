import FrazzOS.Vmm.Tables

/-!
# Vmm — Tree

The tables that a root reaches through present entries, by their paths (`tableAt`), and the walk
of an address (`walk`).  The tables form a tree when distinct paths lead to distinct frames
(`Tree`).

What a store does to the tables and the walks depends only on where it goes:

* `store_outside`: a frame that is not in the tree;
* `store_dangling`: an entry of a table, from not present to not present;
* `store_link`: an entry of a table, from not present to a frame outside the tree with no entry
  present;
* `store_leaf`: an entry of a table of the last level.
-/

namespace FrazzOS.Vmm
open Memory

/-- The index of `virt` at level `l`, counted from `0` for the last. -/
def virtIndex (l : Nat) (virt : BitVec 64) : BitVec 9 := virt.extractLsb' (12 + 9 * l) 9

/-- The table that entry `i` of table `t` links. -/
def nextTable (m : Mem) (t : BitVec 64) (i : BitVec 9) : Option (BitVec 64) :=
  if Present (entry m t i) then some (tableOf (entry m t i)) else none

/-- The leaf that entry `i` of table `t` holds. -/
def leafAt (m : Mem) (t : BitVec 64) (i : BitVec 9) : Option (BitVec 64) :=
  if Present (entry m t i) then some (entry m t i) else none

/-- The table at the end of a path from the root; the last index comes first. -/
def tableAt (m : Mem) (root : BitVec 64) : List (BitVec 9) → Option (BitVec 64)
  | [] => some root
  | i :: p => (tableAt m root p).bind fun t => nextTable m t i

/-- The path of an address to its table of the last level. -/
def leafPath (virt : BitVec 64) : List (BitVec 9) :=
  [virtIndex 1 virt, virtIndex 2 virt, virtIndex 3 virt]

theorem leafPath_length (virt : BitVec 64) : (leafPath virt).length = 3 := rfl

theorem leafPath_le (virt : BitVec 64) : (leafPath virt).length ≤ 3 :=
  Nat.le_of_eq (leafPath_length virt)

/-- The four-level walk of an address: its leaf entry. -/
def walk (m : Mem) (root virt : BitVec 64) : Option (BitVec 64) :=
  (tableAt m root (leafPath virt)).bind fun t => leafAt m t (virtIndex 0 virt)

/-- A page that is mapped has a table of the last level. -/
theorem table_of_walk {m : Mem} {root virt e : BitVec 64} (h : walk m root virt = some e) :
    ∃ t, tableAt m root (leafPath virt) = some t := by
  obtain ⟨t, ht, -⟩ := Option.bind_eq_some_iff.mp h
  exact ⟨t, ht⟩

/-- A table of one of the four levels. -/
def InTree (m : Mem) (root f : BitVec 64) : Prop := ∃ p, p.length ≤ 3 ∧ tableAt m root p = some f

/-- The tables are frames, a different one on every path. -/
structure Tree (m : Mem) (root : BitVec 64) : Prop where
  frame : ∀ {f}, InTree m root f → Frame f
  distinct : ∀ {p q f}, p.length ≤ 3 → q.length ≤ 3 → tableAt m root p = some f →
    tableAt m root q = some f → p = q

/-- Every entry of a frame is zero. -/
def ZeroFilled (m : Mem) (f : BitVec 64) : Prop := ∀ i, entry m f i = 0

/-- What `pmm_alloc` owes a call that finds memory `m`: a zero-filled frame outside the tree. -/
structure Fresh (m : Mem) (root f : BitVec 64) : Prop where
  frame : Frame f
  zero : ZeroFilled m f
  outside : ¬ InTree m root f

/-- A table that no walk reaches, with no entry present. -/
structure Loose (m : Mem) (root t : BitVec 64) : Prop where
  frame : Frame t
  outside : ¬ InTree m root t
  absent : ∀ j, ¬ Present (entry m t j)

variable {m m' : Mem} {root t f : BitVec 64} {p q : List (BitVec 9)} {i : BitVec 9}

theorem Fresh.loose (h : Fresh m root f) : Loose m root f :=
  ⟨h.frame, h.outside, fun j => by rw [h.zero j]; exact not_present_zero⟩

/-! ### Tables under a change of memory -/

theorem tableAt_cons {j : BitVec 9} (h : tableAt m root q = some t) :
    tableAt m root (j :: q) = nextTable m t j := by
  rw [tableAt, h, Option.bind_some]

theorem tableAt_none (j : BitVec 9) (h : tableAt m root q = none) :
    tableAt m root (j :: q) = none := by
  rw [tableAt, h, Option.bind_none]

/-- Below a zero-filled root there are no tables. -/
theorem tableAt_empty (hempty : ZeroFilled m root) : q ≠ [] → tableAt m root q = none := by
  induction q with
  | nil => exact fun h => absurd rfl h
  | cons j q ih =>
      intro _
      cases q with
      | nil =>
          have hroot : tableAt m root [] = some root := rfl
          rw [tableAt_cons hroot, nextTable, hempty j, if_neg not_present_zero]
      | cons j' q => exact tableAt_none j (ih (List.cons_ne_nil j' q))

/-- Memories that agree on the links of the tables on the way agree on the tables. -/
theorem tableAt_congr {n : Nat} (h : ∀ q t j, q.length < n → tableAt m root q = some t →
      nextTable m' t j = nextTable m t j) :
    ∀ q : List (BitVec 9), q.length ≤ n → tableAt m' root q = tableAt m root q := by
  intro q
  induction q with
  | nil => intro _; rfl
  | cons j q ih =>
      intro hlen
      rw [List.length_cons] at hlen
      have hq := ih (by omega)
      cases ht : tableAt m root q with
      | none => rw [tableAt_none j ht, tableAt_none j (hq.trans ht)]
      | some t => rw [tableAt_cons ht, tableAt_cons (hq.trans ht), h q t j (by omega) ht]

theorem inTree_congr (h : ∀ q : List (BitVec 9), q.length ≤ 3 →
      tableAt m' root q = tableAt m root q) (f : BitVec 64) :
    InTree m' root f ↔ InTree m root f := by
  constructor
  · rintro ⟨q, hq, ht⟩; exact ⟨q, hq, (h q hq).symm.trans ht⟩
  · rintro ⟨q, hq, ht⟩; exact ⟨q, hq, (h q hq).trans ht⟩

/-- Memories with the same tables: one is a tree when the other is. -/
theorem Tree.congr (hT : Tree m root) (h : ∀ q : List (BitVec 9), q.length ≤ 3 →
    tableAt m' root q = tableAt m root q) : Tree m' root where
  frame := fun hf => hT.frame ((inTree_congr h _).mp hf)
  distinct := fun hp hq htp htq =>
    hT.distinct hp hq ((h _ hp).symm.trans htp) ((h _ hq).symm.trans htq)

/-- Memories that agree on the tables and on the entries of those of the last level agree on the
walks. -/
theorem walk_congr (h : ∀ q : List (BitVec 9), q.length ≤ 3 → tableAt m' root q = tableAt m root q)
    (hleaf : ∀ q t j, q.length = 3 → tableAt m root q = some t → entry m' t j = entry m t j)
    (virt : BitVec 64) : walk m' root virt = walk m root virt := by
  rw [walk, walk, h (leafPath virt) (leafPath_le virt)]
  cases ht : tableAt m root (leafPath virt) with
  | none => rw [Option.bind_none, Option.bind_none]
  | some t =>
      have hentry := hleaf (leafPath virt) t (virtIndex 0 virt) (leafPath_length virt) ht
      simp only [Option.bind_some, leafAt, hentry]

/-! ### The stores -/

/-- Nothing that a walk reads has changed. -/
structure SameTree (m m' : Mem) (root : BitVec 64) : Prop where
  tables : ∀ q : List (BitVec 9), q.length ≤ 3 → tableAt m' root q = tableAt m root q
  walks : ∀ virt, walk m' root virt = walk m root virt

theorem SameTree.refl (m : Mem) (root : BitVec 64) : SameTree m m root :=
  ⟨fun _ _ => rfl, fun _ => rfl⟩

theorem SameTree.trans {m'' : Mem} (h : SameTree m m' root) (h' : SameTree m' m'' root) :
    SameTree m m'' root :=
  ⟨fun q hq => (h'.tables q hq).trans (h.tables q hq), fun v => (h'.walks v).trans (h.walks v)⟩

variable {s : VmmState}

/-- **A store outside the tree** changes no walk. -/
theorem store_outside (hT : Tree s.mem root) (ht : Frame t) (hout : ¬ InTree s.mem root t)
    (i : BitVec 9) (e : BitVec 64) :
    SameTree s.mem (s.store t (i.setWidth 64) e).mem root := by
  have hentry : ∀ q t' j, q.length ≤ 3 → tableAt s.mem root q = some t' →
      entry (s.store t (i.setWidth 64) e).mem t' j = entry s.mem t' j := by
    intro q t' j hq ht'
    have hin : InTree s.mem root t' := ⟨q, hq, ht'⟩
    rw [entry_store ht (hT.frame hin), if_neg]
    rintro ⟨rfl, -⟩
    exact hout hin
  have htables : ∀ q : List (BitVec 9), q.length ≤ 3 →
      tableAt (s.store t (i.setWidth 64) e).mem root q = tableAt s.mem root q :=
    tableAt_congr fun q t' j hq ht' => by
      rw [nextTable, nextTable, hentry q t' j (Nat.le_of_lt hq) ht']
  exact ⟨htables, walk_congr htables fun q t' j hq ht' => hentry q t' j (by omega) ht'⟩

/-- **A store of one entry that is not present over another** changes no walk. -/
theorem store_dangling (hT : Tree s.mem root) (hp : p.length ≤ 3)
    (ht : tableAt s.mem root p = some t) (hold : ¬ Present (entry s.mem t i)) {e : BitVec 64}
    (hnew : ¬ Present e) :
    SameTree s.mem (s.store t (i.setWidth 64) e).mem root := by
  have htf := hT.frame ⟨p, hp, ht⟩
  have hpresent : ∀ q t' j, q.length ≤ 3 → tableAt s.mem root q = some t' →
      nextTable (s.store t (i.setWidth 64) e).mem t' j = nextTable s.mem t' j ∧
        leafAt (s.store t (i.setWidth 64) e).mem t' j = leafAt s.mem t' j := by
    intro q t' j hq ht'
    have hentry := entry_store (s := s) htf (hT.frame ⟨q, hq, ht'⟩) i j e
    rw [nextTable, nextTable, leafAt, leafAt]
    by_cases h : t' = t ∧ j = i
    · rw [if_pos h] at hentry
      obtain ⟨rfl, rfl⟩ := h
      rw [hentry, if_neg hnew, if_neg hold, if_neg hnew, if_neg hold]
      exact ⟨rfl, rfl⟩
    · rw [if_neg h] at hentry
      rw [hentry]
      exact ⟨rfl, rfl⟩
  have htables : ∀ q : List (BitVec 9), q.length ≤ 3 →
      tableAt (s.store t (i.setWidth 64) e).mem root q = tableAt s.mem root q :=
    tableAt_congr fun q t' j hq ht' => (hpresent q t' j (Nat.le_of_lt hq) ht').1
  refine ⟨htables, fun virt => ?_⟩
  rw [walk, walk, htables (leafPath virt) (leafPath_le virt)]
  cases ht' : tableAt s.mem root (leafPath virt) with
  | none => rw [Option.bind_none, Option.bind_none]
  | some t' => exact (hpresent (leafPath virt) t' _ (leafPath_le virt) ht').2

section Link

variable {e : BitVec 64}

/-- The tables after a store that links a loose frame: one more, at the end of the path. -/
theorem tableAt_link (hT : Tree s.mem root) (hp : p.length ≤ 2) (ht : tableAt s.mem root p = some t)
    (hold : ¬ Present (entry s.mem t i)) (hf : Loose s.mem root f) (he : Present e)
    (hef : tableOf e = f) : ∀ q : List (BitVec 9), q.length ≤ 3 →
    tableAt (s.store t (i.setWidth 64) e).mem root q =
      if q = i :: p then some f else tableAt s.mem root q := by
  have htf := hT.frame ⟨p, by omega, ht⟩
  have hnext : ∀ {t'}, Frame t' → ∀ j, nextTable (s.store t (i.setWidth 64) e).mem t' j =
      if t' = t ∧ j = i then some f else nextTable s.mem t' j := by
    intro t' ht' j
    have hentry := entry_store (s := s) htf ht' i j e
    rw [nextTable, nextTable, hentry]
    by_cases h : t' = t ∧ j = i
    · simp only [if_pos h, if_pos he, hef]
    · simp only [if_neg h]
  have hcut : tableAt s.mem root (i :: p) = none := by
    rw [tableAt_cons ht, nextTable, if_neg hold]
  intro q
  induction q with
  | nil =>
      intro _
      have hnil : ¬ [] = i :: p := (List.cons_ne_nil i p).symm
      rw [if_neg hnil]
      rfl
  | cons j q ih =>
      intro hlen
      rw [List.length_cons] at hlen
      have hq := ih (by omega)
      by_cases hqp : q = i :: p
      · -- below the new table, where nothing is present
        subst hqp
        have hlonger : ¬ j :: i :: p = i :: p := fun h => by
          simpa using congrArg List.length h
        rw [if_pos rfl] at hq
        have hne : f ≠ t := by
          rintro rfl
          exact hf.outside ⟨p, by omega, ht⟩
        rw [tableAt_cons hq, hnext hf.frame, if_neg (fun h => hne h.1), tableAt_none j hcut,
          if_neg hlonger, nextTable, if_neg (hf.absent j)]
      · rw [if_neg hqp] at hq
        cases htq : tableAt s.mem root q with
        | none =>
            rw [tableAt_none j (hq.trans htq), tableAt_none j htq, if_neg]
            rintro ⟨⟩
            rw [ht] at htq
            cases htq
        | some t' =>
            rw [tableAt_cons (hq.trans htq), tableAt_cons htq,
              hnext (hT.frame ⟨q, by omega, htq⟩)]
            by_cases h : t' = t ∧ j = i
            · obtain ⟨rfl, rfl⟩ := h
              obtain rfl := hT.distinct (by omega) (by omega) htq ht
              rw [if_pos ⟨rfl, rfl⟩, if_pos rfl]
            · rw [if_neg h, if_neg]
              rintro ⟨⟩
              exact h ⟨Option.some.inj (htq.symm.trans ht), rfl⟩

/-- **A store that links a loose frame** adds it to the tree, and changes no walk. -/
theorem store_link (hT : Tree s.mem root) (hp : p.length ≤ 2) (ht : tableAt s.mem root p = some t)
    (hold : ¬ Present (entry s.mem t i)) (hf : Loose s.mem root f) (he : Present e)
    (hef : tableOf e = f) :
    Tree (s.store t (i.setWidth 64) e).mem root ∧
      (∀ virt, walk (s.store t (i.setWidth 64) e).mem root virt = walk s.mem root virt) := by
  have htf := hT.frame ⟨p, by omega, ht⟩
  have htables := tableAt_link hT hp ht hold hf he hef
  have hcut : tableAt s.mem root (i :: p) = none := by
    rw [tableAt_cons ht, nextTable, if_neg hold]
  refine ⟨⟨?_, ?_⟩, fun virt => ?_⟩
  · rintro g ⟨q, hq, hg⟩
    rw [htables q hq] at hg
    split at hg
    · cases hg; exact hf.frame
    · exact hT.frame ⟨q, hq, hg⟩
  · intro q q' g hq hq' hg hg'
    rw [htables q hq] at hg
    rw [htables q' hq'] at hg'
    split at hg <;> split at hg'
    · rename_i h h'; exact h.trans h'.symm
    · cases hg; exact absurd ⟨q', hq', hg'⟩ hf.outside
    · cases hg'; exact absurd ⟨q, hq, hg⟩ hf.outside
    · exact hT.distinct hq hq' hg hg'
  · rw [walk, walk, htables (leafPath virt) (leafPath_le virt)]
    by_cases h : leafPath virt = i :: p
    · have hne : f ≠ t := by
        rintro rfl
        exact hf.outside ⟨p, by omega, ht⟩
      have hentry := entry_store (s := s) htf hf.frame i (virtIndex 0 virt) e
      rw [if_neg (fun h => hne h.1)] at hentry
      rw [if_pos h, h, hcut, Option.bind_some, Option.bind_none, leafAt, hentry,
        if_neg (hf.absent _)]
    · rw [if_neg h]
      cases ht' : tableAt s.mem root (leafPath virt) with
      | none => rw [Option.bind_none, Option.bind_none]
      | some t' =>
          have hentry := entry_store (s := s) htf (hT.frame ⟨leafPath virt, leafPath_le virt, ht'⟩)
            i (virtIndex 0 virt) e
          rw [if_neg] at hentry
          · rw [Option.bind_some, Option.bind_some, leafAt, leafAt, hentry]
          · rintro ⟨rfl, -⟩
            rw [← hT.distinct (leafPath_le virt) (by omega) ht' ht, leafPath_length] at hp
            omega

/-- **A store of a leaf** keeps the tables, and changes the walks of its page only. -/
theorem store_leaf (hT : Tree s.mem root) (virt : BitVec 64)
    (ht : tableAt s.mem root (leafPath virt) = some t) (e : BitVec 64) :
    (∀ q : List (BitVec 9), q.length ≤ 3 →
      tableAt (s.store t ((virtIndex 0 virt).setWidth 64) e).mem root q = tableAt s.mem root q) ∧
      ∀ virt', walk (s.store t ((virtIndex 0 virt).setWidth 64) e).mem root virt' =
        if leafPath virt' = leafPath virt ∧ virtIndex 0 virt' = virtIndex 0 virt then
          if Present e then some e else none
        else walk s.mem root virt' := by
  have htf := hT.frame ⟨leafPath virt, (leafPath_le virt), ht⟩
  have hentry := fun {t'} (ht' : InTree s.mem root t') j =>
    entry_store (s := s) htf (hT.frame ht') (virtIndex 0 virt) j e
  have htables : ∀ q : List (BitVec 9), q.length ≤ 3 →
      tableAt (s.store t ((virtIndex 0 virt).setWidth 64) e).mem root q = tableAt s.mem root q :=
    tableAt_congr fun q t' j hq ht' => by
      have hne : ¬ (t' = t ∧ j = virtIndex 0 virt) := by
        rintro ⟨rfl, -⟩
        rw [hT.distinct (by omega) (leafPath_le virt) ht' ht, leafPath_length] at hq
        omega
      rw [nextTable, nextTable, hentry ⟨q, by omega, ht'⟩, if_neg hne]
  refine ⟨htables, fun virt' => ?_⟩
  rw [walk, walk, htables (leafPath virt') (leafPath_le virt')]
  cases ht' : tableAt s.mem root (leafPath virt') with
  | none =>
      rw [if_neg, Option.bind_none, Option.bind_none]
      rintro ⟨h, -⟩
      rw [h, ht] at ht'
      cases ht'
  | some t' =>
      rw [Option.bind_some, Option.bind_some, leafAt, leafAt,
        hentry ⟨leafPath virt', leafPath_le virt', ht'⟩]
      by_cases h : t' = t ∧ virtIndex 0 virt' = virtIndex 0 virt
      · have hpath : leafPath virt' = leafPath virt :=
          hT.distinct (leafPath_le virt') (leafPath_le virt) ht' (h.1 ▸ ht)
        simp only [if_pos h, if_pos (And.intro hpath h.2)]
      · have hpath : ¬ (leafPath virt' = leafPath virt ∧ virtIndex 0 virt' = virtIndex 0 virt) :=
          fun hp => h ⟨Option.some.inj (ht'.symm.trans (hp.1 ▸ ht)), hp.2⟩
        simp only [if_neg h, if_neg hpath]

end Link

end FrazzOS.Vmm
