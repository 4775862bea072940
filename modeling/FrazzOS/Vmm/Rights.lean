import FrazzOS.Vmm.Stale

/-!
# Vmm — Rights

The rights of a page: the `PTE_READ_WRITE` and `PTE_USER_SUPERVISOR` bits that all four entries of
its walk have (`effectiveRights`).  `vmm_map_page` writes the caller's flags into the leaf and into
the entries of the tables that it adds.  The entries of the tables that it finds keep those of the
call that added them.

* `mapFrom_entries`: so a call gives its page the rights it asks for exactly when the present
  entries above the leaf have them before it (`Wide`).
* `granted_iff_wide`: this, at each call of a sequence.
-/

namespace FrazzOS.Vmm
open Memory

/-- `PTE_USER_SUPERVISOR`. -/
def pteUserSupervisor : BitVec 32 := 0x04

/-- The bits that grant a right. -/
def rightsMask : BitVec 32 := pteReadWrite ||| pteUserSupervisor

/-- The rights that some flags ask for. -/
def requested (flags : BitVec 32) : BitVec 64 := (flags &&& rightsMask).signExtend 64

/-- The entries that a walk reads from a table on, up to the first that is not present. -/
def walkEntries (m : Mem) : BitVec 64 → List (BitVec 9) → List (BitVec 64)
  | _, [] => []
  | t, i :: is =>
      entry m t i :: if Present (entry m t i) then walkEntries m (tableOf (entry m t i)) is else []

/-- The entries of the walk of an address. -/
def entriesOf (m : Mem) (root virt : BitVec 64) : List (BitVec 64) :=
  walkEntries m root (descent virt ++ [virtIndex 0 virt])

/-- The rights that the hardware finds: those of every entry. -/
def effectiveRights (m : Mem) (root virt : BitVec 64) : BitVec 64 :=
  (entriesOf m root virt).foldr (· &&& ·) (rightsMask.signExtend 64)

/-- An address is translated through four entries, and has the rights that some flags ask for. -/
structure Granted (m : Mem) (root virt : BitVec 64) (flags : BitVec 32) : Prop where
  levels : (entriesOf m root virt).length = 4
  present : ∀ e ∈ entriesOf m root virt, Present e
  rights : requested flags &&& effectiveRights m root virt = requested flags

/-- An entry has the rights that some flags ask for. -/
def Covers (flags : BitVec 32) (e : BitVec 64) : Prop := requested flags &&& e = requested flags

/-- The entries above the leaf that are present have the rights that some flags ask for. -/
def Wide (m : Mem) (root virt : BitVec 64) (flags : BitVec 32) : Prop :=
  ∀ e ∈ walkEntries m root (descent virt), Present e → Covers flags e

/-- The rest of a call, from a table and the indices below it on. -/
def mapFrom (frames : Nat → BitVec 64) (flags : BitVec 32) (s : VmmState) (t : BitVec 64)
    (is : List (BitVec 9)) (i₀ : BitVec 9) (leaf : BitVec 64) : VmmState :=
  (descend frames flags s t is).2.store (descend frames flags s t is).1 (i₀.setWidth 64) leaf

variable {frames : Nat → BitVec 64} {root t virt phys : BitVec 64} {flags : BitVec 32}
  {s : VmmState} {p : List (BitVec 9)} {i i₀ : BitVec 9} {leaf e : BitVec 64} {ops : List VmmOp}

/-! ### Rights as bits -/

theorem requested_eq (flags : BitVec 32) :
    requested flags = flags.signExtend 64 &&& rightsMask.signExtend 64 := by
  rw [requested, BitVec.signExtend_and]

/-- An entry with some flags has the rights that they ask for. -/
theorem covers_flags (x : BitVec 64) : Covers flags (x ||| flags.signExtend 64) := by
  rw [Covers, requested_eq]
  ext k
  simp only [BitVec.getElem_and, BitVec.getElem_or]
  cases (flags.signExtend 64)[k] <;> simp

/-- The rights of all entries, one by one. -/
theorem covers_foldr (es : List (BitVec 64)) :
    Covers flags (es.foldr (· &&& ·) (rightsMask.signExtend 64)) ↔ ∀ e ∈ es, Covers flags e := by
  induction es with
  | nil =>
      refine iff_of_true ?_ fun e he => absurd he List.not_mem_nil
      rw [List.foldr_nil, Covers, requested_eq, BitVec.and_assoc, BitVec.and_self]
  | cons e es ih =>
      rw [List.foldr_cons, List.forall_mem_cons, ← ih]
      simp only [Covers]
      constructor
      · intro h
        have he : requested flags &&& e = requested flags := by
          rw [← h, BitVec.and_assoc, BitVec.and_assoc, BitVec.and_comm _ e, ← BitVec.and_assoc e e,
            BitVec.and_self]
        refine ⟨he, ?_⟩
        rw [← BitVec.and_assoc, he] at h
        exact h
      · rintro ⟨he, hes⟩
        rw [← BitVec.and_assoc, he, hes]

/-! ### One level -/

/-- **A level keeps the tables** of the tree, and the entries of the others. -/
theorem getNext_keeps (hT : Tree s.mem root) (hp : p.length ≤ 2)
    (ht : tableAt s.mem root p = some t) (hflags : flags.toNat < 0x200)
    (hpres : flags &&& ptePresent ≠ 0)
    (hfresh : FreshCalls root (vmmGetNextMapLevel frames s t (i.setWidth 64) flags).2)
    {q : List (BitVec 9)} {f : BitVec 64} (hq : q.length ≤ 3) (hf : tableAt s.mem root q = some f) :
    tableAt (vmmGetNextMapLevel frames s t (i.setWidth 64) flags).2.mem root q = some f ∧
      (f ≠ t → ∀ j, entry (vmmGetNextMapLevel frames s t (i.setWidth 64) flags).2.mem f j =
        entry s.mem f j) := by
  refine ⟨?_, fun hne j => next_entry (l := ⟨s, t, i⟩) (hT.frame ⟨p, by omega, ht⟩)
    (hT.frame ⟨q, hq, hf⟩) hne j⟩
  by_cases h : Present (entry s.mem t i)
  · rw [getNext_present h]
    exact hf
  · obtain ⟨hloose, hlinked⟩ := hfresh.loose hflags h
    have hlink : Present (linkEntry frames s flags) := (present_link hloose.frame flags).mpr hpres
    have hother : q ≠ i :: p := by
      rintro rfl
      rw [tableAt_cons ht, nextTable, if_neg h] at hf
      cases hf
    have htables := tableAt_link hT hp ht h hloose hlink hlinked q hq
    rw [if_neg hother, hf] at htables
    rw [getNext_absent h]
    exact htables

/-- The entry of a level's own index. -/
theorem getNext_entry (hT : Tree s.mem root) (hp : p.length ≤ 2)
    (ht : tableAt s.mem root p = some t) :
    entry (vmmGetNextMapLevel frames s t (i.setWidth 64) flags).2.mem t i =
      if Present (entry s.mem t i) then entry s.mem t i else linkEntry frames s flags := by
  by_cases h : Present (entry s.mem t i)
  · rw [getNext_present h, if_pos h]
  · have htf := hT.frame ⟨p, by omega, ht⟩
    rw [getNext_absent h, if_neg h, entry_store htf htf, if_pos ⟨rfl, rfl⟩]

/-- A table that a level adds has no entry present. -/
theorem getNext_blank (hT : Tree s.mem root) (hp : p.length ≤ 2)
    (ht : tableAt s.mem root p = some t) (hflags : flags.toNat < 0x200)
    (hfresh : FreshCalls root (vmmGetNextMapLevel frames s t (i.setWidth 64) flags).2)
    (h : ¬ Present (entry s.mem t i)) :
    Blank (vmmGetNextMapLevel frames s t (i.setWidth 64) flags).2.mem
      (vmmGetNextMapLevel frames s t (i.setWidth 64) flags).1 := by
  obtain ⟨hloose, hlinked⟩ := hfresh.loose hflags h
  have hne : frames s.calls.length ≠ t := by
    intro he
    exact hloose.outside (he ▸ ⟨p, by omega, ht⟩)
  have htable : (vmmGetNextMapLevel frames s t (i.setWidth 64) flags).1 =
      frames s.calls.length := next_table_absent (l := ⟨s, t, i⟩) h hlinked
  have hentry : ∀ j, entry (vmmGetNextMapLevel frames s t (i.setWidth 64) flags).2.mem
      (frames s.calls.length) j = entry s.mem (frames s.calls.length) j :=
    next_entry (l := ⟨s, t, i⟩) (hT.frame ⟨p, by omega, ht⟩) hloose.frame hne
  intro j
  rw [htable, hentry]
  exact hloose.absent j

/-! ### The rest of a call -/

theorem freshCalls_descend (is : List (BitVec 9)) : ∀ {s : VmmState} {t : BitVec 64},
    FreshCalls root (descend frames flags s t is).2 → FreshCalls root s := by
  induction is with
  | nil => exact fun h => h
  | cons i is ih =>
      intro s t h
      exact (FreshCalls.of_getNext (ih h)).1

/-- **The tables above** the one where the rest of a call begins keep their entries. -/
theorem mapFrom_above (hflags : flags.toNat < 0x200) (hpres : flags &&& ptePresent ≠ 0)
    (is : List (BitVec 9)) : ∀ {s : VmmState} {t : BitVec 64} {p : List (BitVec 9)},
    Tree s.mem root → tableAt s.mem root p = some t → p.length + is.length ≤ 3 →
    FreshCalls root (descend frames flags s t is).2 →
    ∀ {q : List (BitVec 9)} {f : BitVec 64}, q.length < p.length → tableAt s.mem root q = some f →
      ∀ j, entry (mapFrom frames flags s t is i₀ leaf).mem f j = entry s.mem f j := by
  have hne : ∀ {s : VmmState} {t f : BitVec 64} {p q : List (BitVec 9)}, Tree s.mem root →
      tableAt s.mem root p = some t → p.length ≤ 3 → q.length < p.length →
      tableAt s.mem root q = some f → f ≠ t := by
    rintro s t f p q hT ht hp hq hf rfl
    rw [hT.distinct (by omega) hp hf ht] at hq
    exact Nat.lt_irrefl _ hq
  induction is with
  | nil =>
      intro s t p hT ht hp _ q f hq hf j
      rw [List.length_nil] at hp
      have htf := hT.frame ⟨p, by omega, ht⟩
      have hff := hT.frame ⟨q, by omega, hf⟩
      rw [mapFrom, descend, entry_store htf hff, if_neg]
      exact fun h => hne hT ht (by omega) hq hf h.1
  | cons i is ih =>
      intro s t p hT ht hp hfresh q f hq hf j
      rw [List.length_cons] at hp
      have hfresh' : FreshCalls root (vmmGetNextMapLevel frames s t (i.setWidth 64) flags).2 :=
        freshCalls_descend is hfresh
      obtain ⟨hT', -, ht'⟩ := getNext_map hT (by omega) ht hpres (hfresh'.loose hflags)
      obtain ⟨hf', hentry⟩ := getNext_keeps hT (by omega) ht hflags hpres hfresh' (by omega) hf
      have hrest := ih hT' ht' (by rw [List.length_cons]; omega) hfresh
        (by rw [List.length_cons]; omega) hf' j
      exact hrest.trans (hentry (hne hT ht (by omega) hq hf) j)

/-- **The first entry** of the rest of a call: the one found, or the link of a new table. -/
theorem mapFrom_entry (hflags : flags.toNat < 0x200) (hpres : flags &&& ptePresent ≠ 0)
    {is : List (BitVec 9)} (hT : Tree s.mem root) (ht : tableAt s.mem root p = some t)
    (hp : p.length + (i :: is).length ≤ 3)
    (hfresh : FreshCalls root (descend frames flags s t (i :: is)).2) :
    entry (mapFrom frames flags s t (i :: is) i₀ leaf).mem t i =
      if Present (entry s.mem t i) then entry s.mem t i else linkEntry frames s flags := by
  rw [List.length_cons] at hp
  have hfresh' : FreshCalls root (vmmGetNextMapLevel frames s t (i.setWidth 64) flags).2 :=
    freshCalls_descend is hfresh
  obtain ⟨hT', -, ht'⟩ := getNext_map hT (by omega) ht hpres (hfresh'.loose hflags)
  obtain ⟨hkept, -⟩ := getNext_keeps hT (by omega) ht hflags hpres hfresh' (by omega) ht
  have habove : entry (mapFrom frames flags s t (i :: is) i₀ leaf).mem t i =
      entry (vmmGetNextMapLevel frames s t (i.setWidth 64) flags).2.mem t i :=
    mapFrom_above hflags hpres is hT' ht' (by rw [List.length_cons]; omega) hfresh
      (by rw [List.length_cons]; omega) hkept i
  exact habove.trans (getNext_entry hT (by omega) ht)

/-- The entries on the way of the rest of a call, from its first one on. -/
theorem walkEntries_mapFrom (hflags : flags.toNat < 0x200) (hpres : flags &&& ptePresent ≠ 0)
    (i₀ : BitVec 9) (leaf : BitVec 64) {is : List (BitVec 9)} (hT : Tree s.mem root)
    (ht : tableAt s.mem root p = some t) (hp : p.length + (i :: is).length ≤ 3)
    (hfresh : FreshCalls root (descend frames flags s t (i :: is)).2) :
    walkEntries (mapFrom frames flags s t (i :: is) i₀ leaf).mem t (i :: is ++ [i₀]) =
      (if Present (entry s.mem t i) then entry s.mem t i else linkEntry frames s flags) ::
        walkEntries (mapFrom frames flags s t (i :: is) i₀ leaf).mem
          (vmmGetNextMapLevel frames s t (i.setWidth 64) flags).1 (is ++ [i₀]) := by
  have hfresh' : FreshCalls root (vmmGetNextMapLevel frames s t (i.setWidth 64) flags).2 :=
    freshCalls_descend is hfresh
  rw [List.cons_append, walkEntries, mapFrom_entry hflags hpres hT ht hp hfresh]
  by_cases h : Present (entry s.mem t i)
  · simp only [if_pos h, getNext_present h]
  · obtain ⟨hloose, -⟩ := hfresh'.loose hflags h
    have hlink : Present (linkEntry frames s flags) := (present_link hloose.frame flags).mpr hpres
    simp only [if_neg h, if_pos hlink, getNext_absent h]

/-- From a table with no entry present, a walk reads none that is. -/
theorem walkEntries_blank {m : Mem} (h : Blank m t) (is : List (BitVec 9)) :
    ∀ e ∈ walkEntries m t is, ¬ Present e := by
  cases is with
  | nil => exact fun e he => absurd he List.not_mem_nil
  | cons i is =>
      rw [walkEntries, if_neg (h i), List.forall_mem_singleton]
      exact h i

/-- **The entries that the rest of a call leaves** on its way: all present, and with the rights that
its flags ask for just where those that were present had them. -/
theorem mapFrom_entries (hflags : flags.toNat < 0x200) (hpres : flags &&& ptePresent ≠ 0)
    (hleaf : Present leaf) (hcovers : Covers flags leaf) (i₀ : BitVec 9) (is : List (BitVec 9)) :
    ∀ {s : VmmState} {t : BitVec 64} {p : List (BitVec 9)},
    Tree s.mem root → tableAt s.mem root p = some t → p.length + is.length ≤ 3 →
    FreshCalls root (descend frames flags s t is).2 →
    let es := walkEntries (mapFrom frames flags s t is i₀ leaf).mem t (is ++ [i₀])
    es.length = is.length + 1 ∧ (∀ e ∈ es, Present e) ∧
      ((∀ e ∈ es, Covers flags e) ↔
        ∀ e ∈ walkEntries s.mem t is, Present e → Covers flags e) := by
  induction is with
  | nil =>
      intro s t p hT ht hp _
      rw [List.length_nil] at hp
      have htf := hT.frame ⟨p, by omega, ht⟩
      have hes : walkEntries (mapFrom frames flags s t [] i₀ leaf).mem t ([] ++ [i₀]) = [leaf] := by
        rw [List.nil_append, walkEntries, mapFrom, descend, entry_store htf htf,
          if_pos ⟨rfl, rfl⟩, if_pos hleaf, walkEntries]
      simp only [hes, List.length_singleton, List.length_nil, List.mem_singleton, forall_eq,
        Nat.zero_add, true_and]
      exact ⟨hleaf, iff_of_true hcovers fun e he => absurd he List.not_mem_nil⟩
  | cons i is ih =>
      intro s t p hT ht hp hfresh
      have hcons := walkEntries_mapFrom hflags hpres i₀ leaf hT ht hp hfresh
      rw [List.length_cons] at hp
      have hfresh' : FreshCalls root (vmmGetNextMapLevel frames s t (i.setWidth 64) flags).2 :=
        freshCalls_descend is hfresh
      obtain ⟨hT', -, ht'⟩ := getNext_map hT (by omega) ht hpres (hfresh'.loose hflags)
      obtain ⟨hlen, hall, hiff⟩ := ih hT' ht' (by rw [List.length_cons]; omega) hfresh
      have hrest : mapFrom frames flags s t (i :: is) i₀ leaf =
          mapFrom frames flags (vmmGetNextMapLevel frames s t (i.setWidth 64) flags).2
            (vmmGetNextMapLevel frames s t (i.setWidth 64) flags).1 is i₀ leaf := rfl
      rw [← hrest] at hlen hall hiff
      simp only [hcons, List.length_cons, hlen, List.forall_mem_cons, hiff, true_and]
      by_cases h : Present (entry s.mem t i)
      · -- the entry found stays, and so does what is below it
        rw [getNext_present h] at hall ⊢
        rw [if_pos h, walkEntries, if_pos h, List.forall_mem_cons]
        exact ⟨⟨h, hall⟩, and_congr_left fun _ => ⟨fun hc _ => hc, fun hc => hc h⟩⟩
      · -- the link of a new table has the flags, and nothing was present from here on
        obtain ⟨hloose, -⟩ := hfresh'.loose hflags h
        have hbelow := walkEntries_blank (getNext_blank hT (by omega) ht hflags hfresh' h) is
        rw [if_neg h]
        refine ⟨⟨(present_link hloose.frame flags).mpr hpres, hall⟩,
          iff_of_true ⟨covers_flags _, fun e he hp => absurd hp (hbelow e he)⟩ ?_⟩
        rw [walkEntries, if_neg h, List.forall_mem_singleton]
        exact fun hi => absurd hi h

/-! ### The call -/

/-- **One call** grants what it asks for just where the present entries above its leaf do. -/
theorem vmmMapPage_granted_iff (hT : Tree s.mem root) (hflags : flags.toNat < 0x200)
    (hpres : flags &&& ptePresent ≠ 0)
    (hfresh : FreshCalls root (vmmMapPage frames s root phys virt flags)) :
    Granted (vmmMapPage frames s root phys virt flags).mem root virt flags ↔
      Wide s.mem root virt flags := by
  have hleaf : Present (phys ||| flags.signExtend 64) := (present_or phys flags).mpr (Or.inr hpres)
  have hcall : vmmMapPage frames s root phys virt flags =
      mapFrom frames flags s root (descent virt) (virtIndex 0 virt)
        (phys ||| flags.signExtend 64) :=
    vmmMapPage_eq_descend phys virt
  rw [hcall] at hfresh ⊢
  obtain ⟨hlen, hall, hiff⟩ := mapFrom_entries hflags hpres hleaf (covers_flags phys)
    (virtIndex 0 virt) (descent virt) (p := []) hT rfl (Nat.le_refl 3) hfresh
  rw [Wide, ← hiff, ← covers_foldr]
  exact ⟨fun h => h.rights, fun h => ⟨hlen, hall, h⟩⟩

/-- The root's entry after a call: the one found, or the link of a new table. -/
theorem vmmMapPage_entry (hT : Tree s.mem root) (hflags : flags.toNat < 0x200)
    (hpres : flags &&& ptePresent ≠ 0)
    (hfresh : FreshCalls root (vmmMapPage frames s root phys virt flags)) :
    entry (vmmMapPage frames s root phys virt flags).mem root (virtIndex 3 virt) =
      if Present (entry s.mem root (virtIndex 3 virt)) then entry s.mem root (virtIndex 3 virt)
      else linkEntry frames s flags := by
  rw [vmmMapPage_eq_descend] at hfresh ⊢
  exact mapFrom_entry (p := []) hflags hpres hT rfl (Nat.le_refl 3) hfresh

/-- **At each call of a sequence**: it grants the rights that it asks for exactly when the entries
above its leaf that are present before it have them. -/
theorem granted_iff_wide (hT : Tree s.mem root) (hops : ∀ op ∈ ops, IsMap op)
    (hfresh : FreshCalls root (runOps frames root s ops)) {k : Nat}
    (hk : ops[k]? = some (.map phys virt flags)) :
    Granted (runOps frames root s (ops.take (k + 1))).mem root virt flags ↔
      Wide (runOps frames root s (ops.take k)).mem root virt flags := by
  have hvalid : ∀ op ∈ ops, op.Valid := by
    intro op hop
    obtain ⟨_, _, _, -, h⟩ := hops op hop
    exact h
  have htake : ops.take (k + 1) = ops.take k ++ [.map phys virt flags] := by
    rw [List.take_add_one, hk, Option.toList_some]
  have hcall : runOps frames root s (ops.take (k + 1)) =
      vmmMapPage frames (runOps frames root s (ops.take k)) root phys virt flags := by
    rw [htake, runOps, List.foldl_append]
    rfl
  have hafter : FreshCalls root (runOps frames root s (ops.take (k + 1))) := by
    rw [← List.take_append_drop (k + 1) ops, runOps, List.foldl_append] at hfresh
    exact FreshCalls.of_runOps hfresh
  rw [hcall] at hafter ⊢
  obtain ⟨hflags, hpres⟩ := hvalid _ (List.mem_of_getElem? hk)
  have hbefore : FreshCalls root (runOps frames root s (ops.take k)) := FreshCalls.of_setLeaf hafter
  have hT' := (runOps_refines hT (refines_mapOf s.mem root)
    (fun op hop => hvalid op (List.mem_of_mem_take hop)) hbefore).1
  exact vmmMapPage_granted_iff hT' hflags hpres hafter

/-! ### Two calls -/

/-- Below an empty root no entry is present. -/
theorem wide_empty (virt : BitVec 64) (flags : BitVec 32) :
    Wide (fun _ => 0) 0x1000 virt flags := by
  have habsent : ¬ Present (entry (fun _ => 0) 0x1000 (virtIndex 3 virt)) := by
    rw [entry, read_zero]
    exact not_present_zero
  rw [Wide, descent, walkEntries, if_neg habsent, List.forall_mem_singleton]
  exact fun h => absurd h habsent

/-- The entries of the upper part of a walk are entries of the walk. -/
theorem mem_walkEntries_append {m : Mem} (is js : List (BitVec 9)) :
    ∀ {t : BitVec 64}, e ∈ walkEntries m t is → e ∈ walkEntries m t (is ++ js) := by
  induction is with
  | nil => exact fun h => absurd h List.not_mem_nil
  | cons i is ih =>
      intro t h
      rw [walkEntries, List.mem_cons] at h
      rw [List.cons_append, walkEntries, List.mem_cons]
      refine h.imp_right fun h => ?_
      split at h
      · rename_i hpres
        rw [if_pos hpres]
        exact ih h
      · exact absurd h List.not_mem_nil

/-- A page with the same upper tables as one that has the rights. -/
theorem Granted.wide {m : Mem} {virt' : BitVec 64} (h : Granted m root virt flags)
    (hsame : descent virt' = descent virt) : Wide m root virt' flags := by
  intro e he _
  rw [hsame] at he
  exact (covers_foldr _).mp h.rights e (mem_walkEntries_append _ _ he)

/-- Two pages for the user, one behind the other. -/
def userPages : List VmmOp := [.map 0x5000 0x400000 7, .map 0x6000 0x401000 7]

/-- The second one. -/
theorem granted_second : Granted
    (runOps (framesFrom 0x2000) 0x1000 ⟨fun _ => 0, []⟩ userPages).mem 0x1000 0x401000 7 := by
  have hops : ∀ op ∈ userPages, IsMap op :=
    List.forall_mem_cons.mpr ⟨isMap_map (by decide) (by decide),
      List.forall_mem_singleton.mpr (isMap_map (by decide) (by decide))⟩
  have hfresh : FreshCalls 0x1000
      (runOps (framesFrom 0x2000) 0x1000 ⟨fun _ => 0, []⟩ userPages) :=
    (pool_runOps (N := 6) (by decide) hops (by decide)).fresh
  have hfirst : FreshCalls 0x1000
      (vmmMapPage (framesFrom 0x2000) ⟨fun _ => 0, []⟩ 0x1000 0x5000 0x400000 7) :=
    FreshCalls.of_setLeaf hfresh
  have hgranted := (vmmMapPage_granted_iff tree_empty (by decide) (by decide) hfirst).mpr
    (wide_empty _ _)
  exact (granted_iff_wide tree_empty hops hfresh (k := 1) rfl).mpr (hgranted.wide (by decide))

/-- A page of the kernel and, behind it, one for the user. -/
def mixedOps : List VmmOp := [.map 0x5000 0x400000 3, .map 0x6000 0x401000 7]

/-- **The second page is not for the user**: the tables that the first call added are not. -/
theorem mixed_not_granted :
    Tree (fun _ => 0) 0x1000 ∧ (∀ op ∈ mixedOps, IsMap op) ∧
      FreshCalls 0x1000 (runOps (framesFrom 0x2000) 0x1000 ⟨fun _ => 0, []⟩ mixedOps) ∧
      ¬ Granted (runOps (framesFrom 0x2000) 0x1000 ⟨fun _ => 0, []⟩ mixedOps).mem
        0x1000 0x401000 7 := by
  have hops : ∀ op ∈ mixedOps, IsMap op :=
    List.forall_mem_cons.mpr ⟨isMap_map (by decide) (by decide),
      List.forall_mem_singleton.mpr (isMap_map (by decide) (by decide))⟩
  have hfresh := (pool_runOps (N := 6) (by decide) hops (by decide)).fresh
  have hfirst : FreshCalls 0x1000
      (vmmMapPage (framesFrom 0x2000) ⟨fun _ => 0, []⟩ 0x1000 0x5000 0x400000 3) :=
    FreshCalls.of_setLeaf hfresh
  have hT := (vmmMapPage_refines tree_empty (refines_mapOf _ _) (by decide) (by decide) hfirst).1
  refine ⟨tree_empty, hops, hfresh, fun h => ?_⟩
  have hwide := (vmmMapPage_granted_iff hT (by decide) (by decide) hfresh).mp h
  -- the root's entry is the link of the first call
  have hentry := vmmMapPage_entry tree_empty (by decide) (by decide) hfirst
  have hzero : entry (fun _ => 0) 0x1000 (virtIndex 3 0x400000) = 0 := read_zero _
  simp only [hzero, if_neg not_present_zero] at hentry
  have hlink : linkEntry (framesFrom 0x2000) ⟨fun _ => 0, []⟩ 3 = 0x2003 := by decide
  have hindex : virtIndex 3 0x401000 = virtIndex 3 0x400000 := by decide
  rw [hlink, ← hindex] at hentry
  have hcovers := hwide 0x2003 (by rw [← hentry]; exact List.mem_cons_self) (by decide)
  rw [Covers] at hcovers
  exact absurd hcovers (by decide)

end FrazzOS.Vmm
