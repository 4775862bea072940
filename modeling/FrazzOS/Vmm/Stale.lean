import FrazzOS.Vmm.Refine
import FrazzOS.Vmm.Stores

/-!
# Vmm — Stale

What a call of `vmm_map_page` makes of frames whatever they hold.  `vmm_get_next_map_level` links a
frame as `pmm_alloc` returns it, so an entry left in it that is present is followed as a table.

* `descend_clean`: while the frames of the missing tables are blank, the descent stays among the
  tables of the tree and the frames it takes, and changes no walk.
* `blank_of_empty`: when every new table is empty, these frames were blank.
* `stale_tables`: so new tables are empty, and no other page gets translated, where the frames are.
-/

namespace FrazzOS.Vmm
open Memory

/-- No entry of a table is present. -/
def Blank (m : Mem) (t : BitVec 64) : Prop := ∀ i, ¬ Present (entry m t i)

/-- A call of `vmm_get_next_map_level`: the state it finds, its table and its index. -/
structure LevelCall where
  state : VmmState
  dir : BitVec 64
  index : BitVec 9

section Code

variable (frames : Nat → BitVec 64) (flags : BitVec 32)

/-- What the call returns, and the state it leaves. -/
def LevelCall.next (l : LevelCall) : BitVec 64 × VmmState :=
  vmmGetNextMapLevel frames l.state l.dir (l.index.setWidth 64) flags

/-- The calls of a descent from a table, by the indices of its levels. -/
def levelCalls : VmmState → BitVec 64 → List (BitVec 9) → List LevelCall
  | _, _, [] => []
  | s, t, i :: is =>
      let n := LevelCall.next frames flags ⟨s, t, i⟩
      ⟨s, t, i⟩ :: levelCalls n.2 n.1 is

/-- The table that a descent ends at, and the state it leaves. -/
def descend : VmmState → BitVec 64 → List (BitVec 9) → BitVec 64 × VmmState
  | s, t, [] => (t, s)
  | s, t, i :: is =>
      let n := LevelCall.next frames flags ⟨s, t, i⟩
      descend n.2 n.1 is

end Code

/-- The indices of the three upper levels. -/
def descent (virt : BitVec 64) : List (BitVec 9) :=
  [virtIndex 3 virt, virtIndex 2 virt, virtIndex 1 virt]

/-- A frame that `pmm_alloc` returned from `s` to `s'`. -/
def New (frames : Nat → BitVec 64) (s s' : VmmState) (t : BitVec 64) : Prop :=
  ∃ k, s.calls.length ≤ k ∧ k < s'.calls.length ∧ t = frames k

/-- A table that was in the tree, or is new. -/
def Known (frames : Nat → BitVec 64) (root : BitVec 64) (s s' : VmmState) (t : BitVec 64) : Prop :=
  InTree s.mem root t ∨ New frames s s' t

/-- A call makes no other page translated, dereferences known tables only, and a table that it adds
has no entry present when it is returned. -/
structure FreshTables (frames : Nat → BitVec 64) (s : VmmState) (root phys virt : BitVec 64)
    (flags : BitVec 32) : Prop where
  pages : ∀ v, pageNumber v ≠ pageNumber virt → walk s.mem root v = none →
    walk (vmmMapPage frames s root phys virt flags).mem root v = none
  tables : ∀ l ∈ levelCalls frames flags s root (descent virt),
    Known frames root s (vmmMapPage frames s root phys virt flags) l.dir ∧
      Known frames root s (vmmMapPage frames s root phys virt flags) (l.next frames flags).1
  empty : ∀ l ∈ levelCalls frames flags s root (descent virt),
    ¬ Present (entry l.state.mem l.dir l.index) →
      Blank (l.next frames flags).2.mem (l.next frames flags).1

/-- What `pmm_alloc` owes the calls from `s` to `s'`, whatever the frames hold: different frames
outside the tree. -/
structure Handed (frames : Nat → BitVec 64) (root : BitVec 64) (s s' : VmmState) : Prop where
  frame : ∀ k, s.calls.length ≤ k → k < s'.calls.length → Frame (frames k)
  outside : ∀ k, s.calls.length ≤ k → k < s'.calls.length → ¬ InTree s.mem root (frames k)
  inj : ∀ j k, s.calls.length ≤ j → j < s'.calls.length → s.calls.length ≤ k →
    k < s'.calls.length → frames j = frames k → j = k

/-- The number of tables that are missing on a descent. -/
def missing (m : Mem) : BitVec 64 → List (BitVec 9) → Nat
  | _, [] => 0
  | t, i :: is => if Present (entry m t i) then missing m (tableOf (entry m t i)) is else is.length + 1

/-- The frames of the missing tables are blank, and their links name them. -/
def Clean (frames : Nat → BitVec 64) (s : VmmState) (root virt : BitVec 64) (flags : BitVec 32) :
    Prop :=
  ∀ k, k < missing s.mem root (descent virt) → Blank s.mem (frames (s.calls.length + k)) ∧
    Linked frames flags (s.calls.length + k)

variable {frames : Nat → BitVec 64} {flags : BitVec 32} {root t : BitVec 64} {s s' : VmmState}
  {p : List (BitVec 9)} {i : BitVec 9}

/-! ### One level -/

/-- Where a descent stands; with the flags of a mapping, at a table of the tree. -/
def Standing (m : Mem) (root : BitVec 64) (flags : BitVec 32) (p : List (BitVec 9))
    (t : BitVec 64) : Prop :=
  Reached m root p t ∧ (flags &&& ptePresent ≠ 0 → tableAt m root p = some t)

theorem Standing.frame (hT : Tree s.mem root) (hp : p.length ≤ 3)
    (h : Standing s.mem root flags p t) : Frame t := by
  rcases h.1 with ht | ⟨-, hl⟩
  · exact hT.frame ⟨p, hp, ht⟩
  · exact hl.frame

theorem next_calls_le (l : LevelCall) :
    l.state.calls.length ≤ (l.next frames flags).2.calls.length ∧
      (l.next frames flags).2.calls.length ≤ l.state.calls.length + 1 := by
  rw [LevelCall.next, getNext_calls]
  split <;> omega

theorem next_calls_absent {l : LevelCall} (h : ¬ Present (entry l.state.mem l.dir l.index)) :
    (l.next frames flags).2.calls.length = l.state.calls.length + 1 := by
  rw [LevelCall.next, getNext_absent h]
  rfl

theorem next_table_absent {l : LevelCall} (h : ¬ Present (entry l.state.mem l.dir l.index))
    (hlink : Linked frames flags l.state.calls.length) :
    (l.next frames flags).1 = frames l.state.calls.length := by
  rw [LevelCall.next, getNext_absent h]
  exact hlink

/-- A level writes in its own table only. -/
theorem next_entry {l : LevelCall} {f : BitVec 64} (ht : Frame l.dir) (hf : Frame f)
    (hne : f ≠ l.dir) (j : BitVec 9) :
    entry (l.next frames flags).2.mem f j = entry l.state.mem f j := by
  by_cases h : Present (entry l.state.mem l.dir l.index)
  · rw [LevelCall.next, getNext_present h]
  · rw [LevelCall.next, getNext_absent h]
    have hentry := entry_store (s := (pmmAllocPage frames l.state).2) ht hf l.index j
      (linkEntry frames l.state flags)
    rw [if_neg fun h => hne h.1] at hentry
    exact hentry

/-- **A level with its table missing**, where a loose frame is handed out. -/
theorem next_loose (hT : Tree s.mem root) (hp : p.length ≤ 2)
    (ht : Standing s.mem root flags p t) (h : ¬ Present (entry s.mem t i))
    (hf : Loose s.mem root (frames s.calls.length))
    (hlinked : Linked frames flags s.calls.length) :
    Tree (LevelCall.next frames flags ⟨s, t, i⟩).2.mem root ∧
      (∀ v, walk (LevelCall.next frames flags ⟨s, t, i⟩).2.mem root v = walk s.mem root v) ∧
      Standing (LevelCall.next frames flags ⟨s, t, i⟩).2.mem root flags (i :: p)
        (LevelCall.next frames flags ⟨s, t, i⟩).1 ∧
      ∀ f, f ≠ frames s.calls.length → ¬ InTree s.mem root f →
        ¬ InTree (LevelCall.next frames flags ⟨s, t, i⟩).2.mem root f := by
  rw [LevelCall.next]
  by_cases hpres : flags &&& ptePresent = 0
  · obtain ⟨hsame, hreached⟩ := getNext_dangling hT hp ht.1 hpres fun _ => ⟨hf, hlinked⟩
    refine ⟨hT.congr hsame.tables, hsame.walks, ⟨hreached, fun hn => absurd hpres hn⟩, ?_⟩
    intro f _ hf hin
    exact hf ((inTree_congr hsame.tables f).mp hin)
  · have ht' := ht.2 hpres
    obtain ⟨hT', hwalk, htable⟩ := getNext_map hT hp ht' hpres fun _ => ⟨hf, hlinked⟩
    refine ⟨hT', hwalk, ⟨Or.inl htable, fun _ => htable⟩, ?_⟩
    rintro f hne hout ⟨q, hq, hqf⟩
    have hlink : Present (linkEntry frames s flags) := (present_link hf.frame flags).mpr hpres
    have hlinks := tableAt_link hT hp ht' h hf hlink hlinked q hq
    simp only [getNext_absent h] at hqf
    have hqf' := hlinks.symm.trans hqf
    split at hqf'
    · exact hne (Option.some.inj hqf').symm
    · exact hout ⟨q, hq, hqf'⟩

/-! ### The levels behind the first missing table -/

theorem descend_calls (is : List (BitVec 9)) : ∀ {s : VmmState} {t : BitVec 64},
    s.calls.length ≤ (descend frames flags s t is).2.calls.length ∧
      (descend frames flags s t is).2.calls.length ≤ s.calls.length + is.length := by
  induction is with
  | nil => exact fun {s _} => ⟨Nat.le_refl _, Nat.le_refl _⟩
  | cons i is ih =>
      intro s t
      obtain ⟨h₀, h₁⟩ := @next_calls_le frames flags ⟨s, t, i⟩
      obtain ⟨h₂, h₃⟩ := @ih (LevelCall.next frames flags ⟨s, t, i⟩).2
        (LevelCall.next frames flags ⟨s, t, i⟩).1
      rw [descend, List.length_cons]
      simp only at h₀ h₁
      omega

/-- What a descent with a missing table at its first level knows of the frames to come: they are
different frames outside the tree, and none of them is the table it stands at. -/
structure Ahead (frames : Nat → BitVec 64) (root t : BitVec 64) (s s' : VmmState) : Prop
    extends Handed frames root s s' where
  other : ∀ k, s.calls.length ≤ k → k < s'.calls.length → frames k ≠ t

/-- **The first missing table**: what it takes, and what stays so for the levels behind it. -/
structure FirstMissing (frames : Nat → BitVec 64) (flags : BitVec 32) (root : BitVec 64)
    (p : List (BitVec 9)) (l : LevelCall) (s' : VmmState) : Prop where
  calls : (l.next frames flags).2.calls.length = l.state.calls.length + 1
  table : (l.next frames flags).1 = frames l.state.calls.length
  tree : Tree (l.next frames flags).2.mem root
  walks : ∀ v, walk (l.next frames flags).2.mem root v = walk l.state.mem root v
  standing : Standing (l.next frames flags).2.mem root flags (l.index :: p) (l.next frames flags).1
  ahead : Ahead frames root (l.next frames flags).1 (l.next frames flags).2 s'
  blank : Blank (l.next frames flags).2.mem (l.next frames flags).1
  entries : ∀ k, l.state.calls.length ≤ k → k < s'.calls.length → ∀ j,
    entry (l.next frames flags).2.mem (frames k) j = entry l.state.mem (frames k) j

theorem firstMissing (hT : Tree s.mem root) (hp : p.length ≤ 2)
    (ht : Standing s.mem root flags p t) (h : ¬ Present (entry s.mem t i))
    (hlinked : Linked frames flags s.calls.length) (ha : Ahead frames root t s s')
    (hend : (LevelCall.next frames flags ⟨s, t, i⟩).2.calls.length ≤ s'.calls.length)
    (hblank : Blank s.mem (frames s.calls.length)) :
    FirstMissing frames flags root p ⟨s, t, i⟩ s' := by
  have hcalls := @next_calls_absent frames flags ⟨s, t, i⟩ h
  have hlt : s.calls.length < s'.calls.length := by
    rw [hcalls] at hend
    exact hend
  have hframe := ha.frame _ (Nat.le_refl _) hlt
  have htable := @next_table_absent frames flags ⟨s, t, i⟩ h hlinked
  obtain ⟨hT', hwalks, hstanding, hout⟩ := next_loose hT hp ht h
    ⟨hframe, ha.outside _ (Nat.le_refl _) hlt, hblank⟩ hlinked
  have hentries : ∀ k, s.calls.length ≤ k → k < s'.calls.length → ∀ j,
      entry (LevelCall.next frames flags ⟨s, t, i⟩).2.mem (frames k) j =
        entry s.mem (frames k) j := fun k hk hks =>
    next_entry (ht.frame hT (by omega)) (ha.frame k hk hks) (ha.other k hk hks)
  -- the frames to come are other frames than the one that is taken
  have hnew : ∀ k, s.calls.length + 1 ≤ k → k < s'.calls.length → frames k ≠ frames s.calls.length :=
    fun k hk hks he => by
      have := ha.inj k _ (by omega) hks (Nat.le_refl _) hlt he
      omega
  simp only at hcalls htable
  exact {
    calls := hcalls
    table := htable
    tree := hT'
    walks := hwalks
    standing := hstanding
    ahead := {
      frame := fun k hk hks => ha.frame k (by omega) hks
      outside := fun k hk hks =>
        hout _ (hnew k (by omega) hks) (ha.outside k (by omega) hks)
      inj := fun j k hj hjs hk hks => ha.inj j k (by omega) hjs (by omega) hks
      other := fun k hk hks => by
        rw [htable]
        exact hnew k (by omega) hks }
    blank := fun j => by
      rw [htable, hentries _ (Nat.le_refl _) hlt]
      exact hblank j
    entries := hentries }

/-- Where a descent ends that starts at path `p`, and what it did to the walks. -/
structure Descended (frames : Nat → BitVec 64) (flags : BitVec 32) (root t : BitVec 64)
    (s : VmmState) (p is : List (BitVec 9)) : Prop where
  tree : Tree (descend frames flags s t is).2.mem root
  walks : ∀ v, walk (descend frames flags s t is).2.mem root v = walk s.mem root v
  reached : Reached (descend frames flags s t is).2.mem root (is.reverse ++ p)
    (descend frames flags s t is).1

/-- A level whose table is the first one or new, and whose next table is new and empty. -/
structure Filled (frames : Nat → BitVec 64) (flags : BitVec 32) (s s' : VmmState) (t : BitVec 64)
    (l : LevelCall) : Prop where
  dir : l.dir = t ∨ New frames s s' l.dir
  new : New frames s s' (l.next frames flags).1
  empty : Blank (l.next frames flags).2.mem (l.next frames flags).1

/-- **A descent over blank frames**, from a missing table on: each level takes one of them. -/
theorem descend_blank (is : List (BitVec 9)) :
    ∀ {s : VmmState} {p : List (BitVec 9)} {t : BitVec 64}, Tree s.mem root →
    p.length + is.length ≤ 3 → Standing s.mem root flags p t →
    (∀ i, is.head? = some i → ¬ Present (entry s.mem t i)) →
    Ahead frames root t s (descend frames flags s t is).2 →
    (∀ k, s.calls.length ≤ k → k < (descend frames flags s t is).2.calls.length →
      Blank s.mem (frames k) ∧ Linked frames flags k) →
    Descended frames flags root t s p is ∧ ∀ l ∈ levelCalls frames flags s t is,
      Filled frames flags s (descend frames flags s t is).2 t l := by
  induction is with
  | nil =>
      intro s p t hT hp ht h ha hblank
      exact ⟨⟨hT, fun _ => rfl, ht.1⟩, fun l hl => absurd hl List.not_mem_nil⟩
  | cons i is ih =>
      intro s p t hT hp ht h ha hblank
      rw [List.length_cons] at hp
      have hi := h i rfl
      have hcalls := @next_calls_absent frames flags ⟨s, t, i⟩ hi
      have hend := (@descend_calls frames flags is (LevelCall.next frames flags ⟨s, t, i⟩).2
        (LevelCall.next frames flags ⟨s, t, i⟩).1).1
      have hlt : s.calls.length < (descend frames flags s t (i :: is)).2.calls.length :=
        Nat.lt_of_lt_of_le (Nat.lt_of_lt_of_eq (Nat.lt_succ_self _) hcalls.symm) hend
      have hle : s.calls.length ≤ (LevelCall.next frames flags ⟨s, t, i⟩).2.calls.length :=
        (@next_calls_le frames flags ⟨s, t, i⟩).1
      obtain ⟨hfirst, hlinked⟩ := hblank _ (Nat.le_refl _) hlt
      have hm := firstMissing hT (by omega) ht hi hlinked ha hend hfirst
      obtain ⟨hd, hlevels⟩ := ih hm.tree (by rw [List.length_cons]; omega) hm.standing
        (fun j _ => hm.blank j) hm.ahead fun k hk hks => by
          obtain ⟨hb, hl⟩ := hblank k (Nat.le_trans hle hk) hks
          refine ⟨fun j => ?_, hl⟩
          rw [hm.entries k (Nat.le_trans hle hk) hks]
          exact hb j
      have hnew : New frames s (descend frames flags s t (i :: is)).2
          (LevelCall.next frames flags ⟨s, t, i⟩).1 := ⟨_, Nat.le_refl _, hlt, hm.table⟩
      have hmono : ∀ f, New frames (LevelCall.next frames flags ⟨s, t, i⟩).2
          (descend frames flags s t (i :: is)).2 f →
          New frames s (descend frames flags s t (i :: is)).2 f := fun f hf => by
        obtain ⟨k, hk, hks, he⟩ := hf
        exact ⟨k, Nat.le_trans hle hk, hks, he⟩
      refine ⟨⟨hd.tree, fun v => (hd.walks v).trans (hm.walks v), ?_⟩, fun l hl => ?_⟩
      · rw [List.reverse_cons, List.append_assoc]
        exact hd.reached
      · rcases List.mem_cons.mp hl with rfl | hl
        · exact ⟨Or.inl rfl, hnew, hm.blank⟩
        · obtain ⟨hdir, hnext, hempty⟩ := hlevels l hl
          refine ⟨Or.inr ?_, hmono _ hnext, hempty⟩
          rcases hdir with hdir | hdir
          · exact hdir ▸ hnew
          · exact hmono _ hdir

/-- **Empty new tables**: a level that a missing table was linked at took a blank frame. -/
theorem blank_of_empty (is : List (BitVec 9)) :
    ∀ {s : VmmState} {p : List (BitVec 9)} {t : BitVec 64}, Tree s.mem root →
    (∀ k, k < is.length → Linked frames flags (s.calls.length + k)) →
    p.length + is.length ≤ 3 → Standing s.mem root flags p t →
    (∀ i, is.head? = some i → ¬ Present (entry s.mem t i)) →
    Ahead frames root t s (descend frames flags s t is).2 →
    (∀ l ∈ levelCalls frames flags s t is, ¬ Present (entry l.state.mem l.dir l.index) →
      Blank (l.next frames flags).2.mem (l.next frames flags).1) →
    (descend frames flags s t is).2.calls.length = s.calls.length + is.length ∧
      ∀ k, k < is.length → Blank s.mem (frames (s.calls.length + k)) := by
  induction is with
  | nil =>
      intro s p t hT hlinked hp ht h ha hempty
      exact ⟨rfl, fun k hk => absurd hk (Nat.not_lt_zero k)⟩
  | cons i is ih =>
      intro s p t hT hlinked hp ht h ha hempty
      rw [List.length_cons] at hp hlinked
      have hi := h i rfl
      have hcalls := @next_calls_absent frames flags ⟨s, t, i⟩ hi
      have hend := (@descend_calls frames flags is (LevelCall.next frames flags ⟨s, t, i⟩).2
        (LevelCall.next frames flags ⟨s, t, i⟩).1).1
      have hlt : s.calls.length < (descend frames flags s t (i :: is)).2.calls.length :=
        Nat.lt_of_lt_of_le (Nat.lt_of_lt_of_eq (Nat.lt_succ_self _) hcalls.symm) hend
      have hframe := ha.frame _ (Nat.le_refl _) hlt
      -- the new table is empty, so the frame was blank before it was linked
      have hfirst : Blank s.mem (frames s.calls.length) := by
        intro j
        have hmem : (⟨s, t, i⟩ : LevelCall) ∈ levelCalls frames flags s t (i :: is) :=
          List.mem_cons_self
        have htable := @next_table_absent frames flags ⟨s, t, i⟩ hi (hlinked 0 (by omega))
        have hj := hempty ⟨s, t, i⟩ hmem hi j
        rw [htable] at hj
        have hentry := @next_entry frames flags ⟨s, t, i⟩ (frames s.calls.length)
          (ht.frame hT (by omega)) hframe (ha.other _ (Nat.le_refl _) hlt) j
        simp only at hj hentry
        rw [hentry] at hj
        exact hj
      have hm := firstMissing hT (by omega) ht hi (hlinked 0 (by omega)) ha hend hfirst
      have hlinked' : ∀ k, k < is.length →
          Linked frames flags ((LevelCall.next frames flags ⟨s, t, i⟩).2.calls.length + k) :=
        fun k hk => by
          rw [hcalls, Nat.add_assoc, Nat.add_comm 1 k]
          exact hlinked (k + 1) (by omega)
      obtain ⟨hlen, hrest⟩ := ih hm.tree hlinked' (by rw [List.length_cons]; omega) hm.standing
        (fun j _ => hm.blank j) hm.ahead fun l hl => hempty l (List.mem_cons_of_mem _ hl)
      simp only at hcalls
      have hlen' : (descend frames flags s t (i :: is)).2.calls.length =
          s.calls.length + (i :: is).length := by
        rw [List.length_cons, ← Nat.add_assoc, Nat.add_right_comm, ← hcalls]
        exact hlen
      refine ⟨hlen', fun k hk => ?_⟩
      cases k with
      | zero => exact hfirst
      | succ k =>
          rw [List.length_cons] at hk hlen'
          intro j
          have hj := hrest k (by omega) j
          rw [hcalls, Nat.add_right_comm, Nat.add_assoc] at hj
          have hentry := hm.entries (s.calls.length + (k + 1)) (Nat.le_add_right _ _) (by omega) j
          exact fun hpresent => hj (hentry.symm ▸ hpresent)

/-! ### The whole descent -/

theorem next_present (h : Present (entry s.mem t i)) :
    LevelCall.next frames flags ⟨s, t, i⟩ = (tableOf (entry s.mem t i), s) :=
  getNext_present h

/-- A level at known tables, whose next table is empty where it is added. -/
structure FreshLevel (frames : Nat → BitVec 64) (flags : BitVec 32) (root : BitVec 64)
    (s s' : VmmState) (l : LevelCall) : Prop where
  dir : Known frames root s s' l.dir
  next : Known frames root s s' (l.next frames flags).1
  empty : ¬ Present (entry l.state.mem l.dir l.index) →
    Blank (l.next frames flags).2.mem (l.next frames flags).1

theorem Handed.ahead (h : Handed frames root s s') (ht : InTree s.mem root t) :
    Ahead frames root t s s' where
  toHanded := h
  other := fun k hk hks he => h.outside k hk hks (he ▸ ht)

/-- **A clean descent** stays at known tables, and changes no walk. -/
theorem descend_clean (hT : Tree s.mem root) (is : List (BitVec 9)) :
    ∀ {p : List (BitVec 9)} {t : BitVec 64}, tableAt s.mem root p = some t →
    p.length + is.length ≤ 3 → Handed frames root s (descend frames flags s t is).2 →
    (∀ k, k < missing s.mem t is → Blank s.mem (frames (s.calls.length + k)) ∧
      Linked frames flags (s.calls.length + k)) →
    Descended frames flags root t s p is ∧ ∀ l ∈ levelCalls frames flags s t is,
      FreshLevel frames flags root s (descend frames flags s t is).2 l := by
  induction is with
  | nil =>
      intro p t ht hp hh hc
      exact ⟨⟨hT, fun _ => rfl, Or.inl ht⟩, fun l hl => absurd hl List.not_mem_nil⟩
  | cons i is ih =>
      intro p t ht hp hh hc
      rw [List.length_cons] at hp
      have hin : InTree s.mem root t := ⟨p, by omega, ht⟩
      by_cases h : Present (entry s.mem t i)
      · have hn := @next_present frames flags _ _ _ h
        have ht' : tableAt s.mem root (i :: p) = some (tableOf (entry s.mem t i)) := by
          rw [tableAt_cons ht, nextTable, if_pos h]
        rw [missing, if_pos h] at hc
        have hd : descend frames flags s t (i :: is) =
            descend frames flags s (tableOf (entry s.mem t i)) is := by rw [descend, hn]
        rw [hd] at hh
        obtain ⟨⟨htree, hwalks, hreached⟩, hlevels⟩ :=
          ih ht' (by rw [List.length_cons]; omega) hh hc
        refine ⟨⟨by rw [hd]; exact htree, by rw [hd]; exact hwalks, ?_⟩, fun l hl => ?_⟩
        · rw [hd, List.reverse_cons, List.append_assoc]
          exact hreached
        · rw [levelCalls, hn] at hl
          rw [hd]
          rcases List.mem_cons.mp hl with rfl | hl
          · refine ⟨Or.inl hin, Or.inl ?_, fun habsent => absurd h habsent⟩
            rw [hn]
            exact ⟨i :: p, by rw [List.length_cons]; omega, ht'⟩
          · exact hlevels l hl
      · rw [missing, if_neg h] at hc
        have hcalls := (@descend_calls frames flags (i :: is) s t).2
        rw [List.length_cons] at hcalls
        obtain ⟨hd, hlevels⟩ := descend_blank (i :: is) hT
          (by rw [List.length_cons]; omega) ⟨Or.inl ht, fun _ => ht⟩
          (fun j hj => Option.some.inj hj ▸ h) (hh.ahead hin) fun k hk hks => by
            have hk' := hc (k - s.calls.length) (by omega)
            rwa [Nat.add_sub_cancel' hk] at hk'
        refine ⟨hd, fun l hl => ?_⟩
        obtain ⟨hdir, hnext, hempty⟩ := hlevels l hl
        refine ⟨?_, Or.inr hnext, fun _ => hempty⟩
        rcases hdir with he | hnew
        · rw [he]
          exact Or.inl hin
        · exact Or.inr hnew

/-- **Empty new tables** make a descent a clean one. -/
theorem clean_of_empty (hT : Tree s.mem root) (is : List (BitVec 9)) :
    ∀ {p : List (BitVec 9)} {t : BitVec 64},
    (∀ k, k < missing s.mem t is → Linked frames flags (s.calls.length + k)) →
    tableAt s.mem root p = some t → p.length + is.length ≤ 3 →
    Handed frames root s (descend frames flags s t is).2 →
    (∀ l ∈ levelCalls frames flags s t is, ¬ Present (entry l.state.mem l.dir l.index) →
      Blank (l.next frames flags).2.mem (l.next frames flags).1) →
    ∀ k, k < missing s.mem t is → Blank s.mem (frames (s.calls.length + k)) := by
  induction is with
  | nil => exact fun _ _ _ _ _ k hk => absurd hk (Nat.not_lt_zero k)
  | cons i is ih =>
      intro p t hlinked ht hp hh hempty
      rw [List.length_cons] at hp
      by_cases h : Present (entry s.mem t i)
      · have hn := @next_present frames flags _ _ _ h
        have ht' : tableAt s.mem root (i :: p) = some (tableOf (entry s.mem t i)) := by
          rw [tableAt_cons ht, nextTable, if_pos h]
        rw [missing, if_pos h] at hlinked ⊢
        rw [descend, hn] at hh
        rw [levelCalls, hn] at hempty
        exact ih hlinked ht' (by rw [List.length_cons]; omega) hh fun l hl =>
          hempty l (List.mem_cons_of_mem _ hl)
      · rw [missing, if_neg h] at hlinked ⊢
        exact (blank_of_empty (i :: is) hT hlinked (by rw [List.length_cons]; omega)
          ⟨Or.inl ht, fun _ => ht⟩ (fun j hj => Option.some.inj hj ▸ h)
          (hh.ahead ⟨p, by omega, ht⟩) hempty).2

/-! ### The call -/

theorem vmmMapPage_eq_descend (phys virt : BitVec 64) :
    vmmMapPage frames s root phys virt flags =
      (descend frames flags s root (descent virt)).2.store
        (descend frames flags s root (descent virt)).1 ((virtIndex 0 virt).setWidth 64)
        (phys ||| flags.signExtend 64) := by
  rw [vmmMapPage, setLeaf_eq]
  rfl

/-- The leaf store, wherever the descent ended, changes the walks of its page only. -/
theorem walk_store_reached {virt : BitVec 64} (hT : Tree s.mem root)
    (ht : Reached s.mem root (leafPath virt) t) (e : BitVec 64) {v : BitVec 64}
    (hv : pageNumber v ≠ pageNumber virt) :
    walk (s.store t ((virtIndex 0 virt).setWidth 64) e).mem root v = walk s.mem root v := by
  rcases ht with ht | ⟨-, hl⟩
  · rw [(store_leaf hT virt ht e).2 v, if_neg]
    exact fun h => hv (samePage_iff.mp h)
  · exact (store_outside hT hl.frame hl.outside _ e).walks v

/-- **New tables are empty, and no other page gets translated**, where the frames of the missing
tables are blank and their links name them; and where the links do, only with blank frames. -/
theorem stale_tables {phys virt : BitVec 64} (hT : Tree s.mem root)
    (hh : Handed frames root s (vmmMapPage frames s root phys virt flags)) :
    (Clean frames s root virt flags → FreshTables frames s root phys virt flags) ∧
      ((∀ k, k < missing s.mem root (descent virt) → Linked frames flags (s.calls.length + k)) →
        FreshTables frames s root phys virt flags → Clean frames s root virt flags) := by
  have hcall := @vmmMapPage_eq_descend frames flags root s phys virt
  have hh' : Handed frames root s (descend frames flags s root (descent virt)).2 := by
    rw [hcall] at hh
    exact ⟨hh.frame, hh.outside, hh.inj⟩
  constructor
  · intro hc
    obtain ⟨hd, hlevels⟩ := descend_clean hT (descent virt) (p := []) rfl (Nat.le_refl 3) hh' hc
    refine ⟨fun v hv hnone => ?_, fun l hl => ?_, fun l hl => (hlevels l hl).empty⟩
    · rw [hcall, walk_store_reached hd.tree hd.reached _ hv, hd.walks]
      exact hnone
    · rw [hcall]
      exact ⟨(hlevels l hl).dir, (hlevels l hl).next⟩
  · intro hlinked hf k hk
    exact ⟨clean_of_empty hT (descent virt) (p := []) hlinked rfl (Nat.le_refl 3) hh' hf.empty k hk,
      hlinked k hk⟩

/-! ### Frames of a pool -/

/-- Below an empty root, the frames of a pool are outside the tree. -/
theorem handed_of_empty {N : Nat} (hempty : ZeroFilled s.mem root) (hd : Distinct frames root N)
    (hN : s'.calls.length ≤ N) : Handed frames root s s' where
  frame := fun k _ hk => hd.frame k (by omega)
  outside := by
    rintro k - hk ⟨q, -, hq⟩
    by_cases hnil : q = []
    · subst hnil
      exact hd.root_ne k (by omega) (Option.some.inj hq).symm
    · rw [tableAt_empty hempty hnil] at hq
      cases hq
  inj := fun j k _ hj _ hk => hd.inj j k (by omega) (by omega)

theorem vmmMapPage_calls (phys virt : BitVec 64) :
    (vmmMapPage frames s root phys virt flags).calls.length ≤ s.calls.length + 3 := by
  rw [vmmMapPage_eq_descend]
  exact (@descend_calls frames flags (descent virt) s root).2

theorem missing_le (m : Mem) (is : List (BitVec 9)) : ∀ t, missing m t is ≤ is.length := by
  induction is with
  | nil => exact fun _ => Nat.le_refl 0
  | cons i is ih =>
      intro t
      rw [missing, List.length_cons]
      split
      · exact Nat.le_succ_of_le (ih _)
      · exact Nat.le_refl _

/-- The links of the frames of a pool name them. -/
theorem Distinct.linked {N k : Nat} (hd : Distinct frames root N) (hk : k < N)
    (hflags : flags.toNat < 0x200) : Linked frames flags k :=
  tableOf_link (hd.frame k hk) hflags

theorem distinct_three : Distinct (framesFrom 0x2000) 0x1000 3 :=
  distinct_framesFrom (by decide) (by decide) (by decide)

/-- Zeroed memory. -/
theorem stale_tables_zero :
    FreshTables (framesFrom 0x2000) ⟨fun _ => 0, []⟩ 0x1000 0x5000 0x400000 3 := by
  have hh : Handed (framesFrom 0x2000) 0x1000 ⟨fun _ => 0, []⟩
      (vmmMapPage (framesFrom 0x2000) ⟨fun _ => 0, []⟩ 0x1000 0x5000 0x400000 3) :=
    handed_of_empty (fun i => read_zero _) distinct_three (vmmMapPage_calls _ _)
  refine (stale_tables tree_empty hh).1 fun k hk => ⟨fun i => ?_, ?_⟩
  · rw [entry, read_zero]
    exact not_present_zero
  · have hle := missing_le (fun _ => 0) (descent 0x400000) 0x1000
    refine distinct_three.linked ?_ (by decide)
    rw [List.length_nil, Nat.zero_add]
    exact Nat.lt_of_lt_of_le hk hle

/-- Zeroed memory, but for a word left in the frame at `0x2000`. -/
def staleMem : Mem := write (fun _ => 0) 0x2000 0x5003

theorem staleMem_root : ZeroFilled staleMem 0x1000 := by
  intro i
  have hi := i.isLt
  have haddr := entryAddr_toNat (t := 0x1000) ⟨by decide, by decide⟩ i
  have h₁ : (0x1000 : BitVec 64).toNat = 4096 := rfl
  have h₂ : (0x2000 : BitVec 64).toNat = 8192 := rfl
  rw [entry, staleMem, read_write_apart (apart_of_toNat (by omega) (by omega) (by omega)), read_zero]

/-- A word left in the first frame is an entry of the first table that is added. -/
theorem fresh_tables_stale : ¬ ∀ (frames : Nat → BitVec 64) (s : VmmState)
    (root phys virt : BitVec 64) (flags : BitVec 32), Tree s.mem root →
    Handed frames root s (vmmMapPage frames s root phys virt flags) → flags.toNat < 0x200 →
    FreshTables frames s root phys virt flags := by
  intro hall
  have hroot : Frame 0x1000 := ⟨by decide, by decide⟩
  have hT : Tree staleMem 0x1000 := (@pool_start (framesFrom 0x2000) 0x1000 0 staleMem hroot
    staleMem_root fun k hk => absurd hk (Nat.not_lt_zero k)).tree
  have hh : Handed (framesFrom 0x2000) 0x1000 ⟨staleMem, []⟩
      (vmmMapPage (framesFrom 0x2000) ⟨staleMem, []⟩ 0x1000 0x5000 0x400000 3) :=
    handed_of_empty staleMem_root distinct_three (vmmMapPage_calls _ _)
  have hf := hall (framesFrom 0x2000) ⟨staleMem, []⟩ 0x1000 0x5000 0x400000 3 hT hh (by decide)
  have hmissing : missing staleMem 0x1000 (descent 0x400000) = 3 := by
    have hnot : ¬ Present (entry staleMem 0x1000 (virtIndex 3 0x400000)) := by
      rw [staleMem_root]
      exact not_present_zero
    rw [descent, missing, if_neg hnot]
    rfl
  have hlinked : ∀ k, k < missing staleMem 0x1000 (descent 0x400000) →
      Linked (framesFrom 0x2000) 3 (0 + k) := fun k hk =>
    distinct_three.linked (by rw [hmissing] at hk; omega) (by decide)
  rw [vmmMapPage_eq_descend] at hh
  have hroot' : tableAt staleMem 0x1000 [] = some 0x1000 := rfl
  have hclean := @clean_of_empty (framesFrom 0x2000) 3 0x1000 ⟨staleMem, []⟩ hT (descent 0x400000)
    [] 0x1000 hlinked hroot' (Nat.le_refl 3) ⟨hh.frame, hh.outside, hh.inj⟩ hf.empty
  have hblank : ¬ Present (entry staleMem (framesFrom 0x2000 0) 0) :=
    hclean 0 (by rw [hmissing]; decide) 0
  have hframe : framesFrom 0x2000 0 = 0x2000 := by decide
  have hentry : entry staleMem 0x2000 0 = 0x5003 := read_write _ _ _
  rw [hframe, hentry] at hblank
  exact hblank (by decide)

end FrazzOS.Vmm
