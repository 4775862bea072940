import FrazzOS.Support.Runs
import Mathlib.Algebra.BigOperators.Group.Finset.Basic
import Mathlib.Data.Fintype.Basic

/-!
# Klibc — Kprint

`kprint` of `io.c` and the spinlock of `lock.c`, on any number of processors.

Each processor runs a thread: a task, and the handlers that have interrupted it one over the other,
each with the place in `kprint` where it is.  A processor may take an interrupt while its flag is
set, go on in another thread, and call `kprint` anywhere outside of it; `term_print_string` is a
call of `term_print_char` for each code point, and the console is the list of them.

* `Inv`: who holds the lock is running, with its flag cleared, and is the only one.
* `console_eq`: the console has the strings whole, in the order in which the lock was taken, and
  every string that has been passed to `kprint` is there once, or waits.
* `lock_freed`: who holds the lock gives it back, after a number of its own steps.
* `kprint_prints`: who wants the lock can get it.
-/

namespace FrazzOS.Klibc

open Runs

/-- Where an activity is in `kprint`; the strings are what is left to print. -/
inductive Site where
  | outside
  | cli (str : List Nat)
  | lock (str : List Nat)
  | print (str : List Nat)
  | unlock
  | sti

/-- A task and the handlers over it, the running one on top, and the interrupt flag. -/
structure Thread where
  iflag : Bool
  top : Site
  below : List Site

structure Cpu where
  running : Thread
  suspended : List Thread

structure Machine (n : Nat) where
  spinlock : Bool
  console : List Nat
  cpu : Fin n → Cpu

/-- What happens on a processor. -/
inductive KprintEvent where
  | kprint (str : List Nat)
  | exec
  | flag (iflag : Bool)
  | interrupt
  | iretq
  | switch (k : Nat)
  | create (iflag : Bool)

/-- What a step leaves: the lock, what is printed, and the thread. -/
structure Effect (α : Type) where
  spinlock : Bool
  printed : List Nat
  after : α

/-- A step of `kprint`. -/
def Thread.exec (spinlock : Bool) (t : Thread) : Option (Effect Thread) :=
  match t.top with
  | .outside => none
  | .cli str => some ⟨spinlock, [], { t with iflag := false, top := .lock str }⟩
  | .lock str =>
    -- `atomic_flag_test_and_set_explicit`, which spins while the flag is set
    if spinlock then some ⟨true, [], t⟩ else some ⟨true, [], { t with top := .print str }⟩
  | .print (c :: str) => some ⟨spinlock, [c], { t with top := .print str }⟩
  | .print [] => some ⟨spinlock, [], { t with top := .unlock }⟩
  | .unlock => some ⟨false, [], { t with top := .sti }⟩
  | .sti => some ⟨spinlock, [], { t with iflag := true, top := .outside }⟩

/-- What happens to the thread that runs, but for a switch. -/
def Thread.step (spinlock : Bool) (t : Thread) : KprintEvent → Option (Effect Thread)
  | .exec => t.exec spinlock
  | .kprint str =>
    match t.top with
    | .outside => some ⟨spinlock, [], { t with top := .cli str }⟩
    | _ => none
  | .flag iflag =>
    match t.top with
    | .outside => some ⟨spinlock, [], { t with iflag := iflag }⟩
    | _ => none
  | .interrupt =>
    if t.iflag then some ⟨spinlock, [], ⟨false, .outside, t.top :: t.below⟩⟩ else none
  | .iretq =>
    match t.top, t.below with
    | .outside, site :: below => some ⟨spinlock, [], ⟨true, site, below⟩⟩
    | _, _ => none
  | _ => none

/-- A step of a processor. -/
def Cpu.step (spinlock : Bool) (c : Cpu) : KprintEvent → Option (Effect Cpu)
  | .switch k =>
    match c.running.top, c.suspended[k]? with
    | .outside, some t => some ⟨spinlock, [], ⟨t, c.suspended.set k c.running⟩⟩
    | _, _ => none
  | .create iflag =>
    match c.running.top with
    | .outside =>
      some ⟨spinlock, [], { c with suspended := ⟨iflag, .outside, []⟩ :: c.suspended }⟩
    | _ => none
  | e => do
    let r ← c.running.step spinlock e
    return ⟨r.spinlock, r.printed, { c with running := r.after }⟩

/-- A step of the machine: one of the processor `a.1`. -/
def Step {n : Nat} (s : Machine n) (a : Fin n × KprintEvent) (s' : Machine n) : Prop :=
  ∃ r, (s.cpu a.1).step s.spinlock a.2 = some r ∧
    s' = ⟨r.spinlock, s.console ++ r.printed, Function.update s.cpu a.1 r.after⟩

/-- No processor is in `kprint`, and no task has been created. -/
def start (n : Nat) : Machine n := ⟨false, [], fun _ => ⟨⟨false, .outside, []⟩, []⟩⟩

/-! ### What the runs keep -/

/-- Between `lock` and `unlock`. -/
def Site.Holding : Site → Prop
  | .print _ | .unlock => True
  | _ => False

/-- Between `cli` and `sti`. -/
def Site.Masked : Site → Prop
  | .lock _ | .print _ | .unlock | .sti => True
  | _ => False

/-- What is left to print by who holds the lock. -/
def Site.rest : Site → List Nat
  | .print str => str
  | _ => []

/-- The string of a call that has not taken the lock yet. -/
def Site.waiting : Site → Multiset (List Nat)
  | .cli str | .lock str => {str}
  | _ => 0

def Thread.waiting (t : Thread) : Multiset (List Nat) :=
  t.top.waiting + (t.below.map Site.waiting).sum

def Cpu.waiting (c : Cpu) : Multiset (List Nat) :=
  c.running.waiting + (c.suspended.map Thread.waiting).sum

/-- The strings of all calls that have not taken the lock. -/
def Machine.waiting {n : Nat} (s : Machine n) : Multiset (List Nat) := ∑ i, (s.cpu i).waiting

/-- A thread that may be interrupted, or has been, is not between `cli` and `sti`. -/
structure Thread.Ok (t : Thread) : Prop where
  masked : t.top.Masked → t.iflag = false
  below : ∀ site ∈ t.below, ¬ site.Masked

/-- A processor whose threads are in order, and wait nowhere in `kprint` where they do not run. -/
structure Cpu.Ok (c : Cpu) : Prop where
  running : c.running.Ok
  suspended : ∀ t ∈ c.suspended, t.Ok ∧ ¬ t.top.Masked

/-- **The invariant.** -/
structure Inv {n : Nat} (s : Machine n) : Prop where
  ok : ∀ i, (s.cpu i).Ok
  holder : s.spinlock = true ↔ ∃ i, (s.cpu i).running.top.Holding
  alone : ∀ i j, (s.cpu i).running.top.Holding → (s.cpu j).running.top.Holding → i = j

/-- The string that is passed to `kprint`. -/
def KprintEvent.called : KprintEvent → Multiset (List Nat)
  | .kprint str => {str}
  | _ => 0

/-- What a step of a processor does, as far as the lock and the console are concerned. -/
inductive Does (spinlock : Bool) (c : Cpu) (e : KprintEvent) : Effect Cpu → Prop
  | quiet {c' : Cpu} (before : ¬ c.running.top.Holding) (after : ¬ c'.running.top.Holding)
      (waiting : c'.waiting = c.waiting + e.called) (ok : c'.Ok) :
      Does spinlock c e ⟨spinlock, [], c'⟩
  | acquire {str : List Nat} (he : e = .exec) (htop : c.running.top = .lock str)
      (hfree : spinlock = false) :
      Does spinlock c e ⟨true, [], { c with running.top := .print str }⟩
  | put {a : Nat} {str : List Nat} (he : e = .exec) (htop : c.running.top = .print (a :: str)) :
      Does spinlock c e ⟨spinlock, [a], { c with running.top := .print str }⟩
  | finish (he : e = .exec) (htop : c.running.top = .print []) :
      Does spinlock c e ⟨spinlock, [], { c with running.top := .unlock }⟩
  | release (he : e = .exec) (htop : c.running.top = .unlock) :
      Does spinlock c e ⟨false, [], { c with running.top := .sti }⟩

section Steps

variable {spinlock : Bool} {c : Cpu} {e : KprintEvent} {r : Effect Cpu} {t : Thread}

/-- Who holds the lock is between `cli` and `sti`. -/
theorem Site.Holding.masked {site : Site} (h : site.Holding) : site.Masked := by
  cases site with
  | print str => trivial
  | unlock => trivial
  | _ => exact h.elim

/-- The running thread goes on at another place, outside of `print` and `unlock`. -/
theorem does_move {iflag : Bool} {site : Site} (hok : c.Ok) (before : ¬ c.running.top.Holding)
    (after : ¬ site.Holding) (waiting : site.waiting = c.running.top.waiting + e.called)
    (masked : site.Masked → iflag = false) :
    Does spinlock c e ⟨spinlock, [], { c with running := ⟨iflag, site, c.running.below⟩ }⟩ := by
  refine .quiet before after ?_ ⟨⟨masked, hok.running.below⟩, hok.suspended⟩
  simp only [Cpu.waiting, Thread.waiting, waiting, add_right_comm _ e.called]

/-- A step of `kprint`. -/
theorem does_of_exec (hok : c.Ok) (h : c.step spinlock .exec = some r) :
    Does spinlock c .exec r := by
  obtain ⟨⟨iflag, top, below⟩, suspended⟩ := c
  cases top with
  | outside => cases h
  | cli str =>
      cases h
      exact does_move hok id id (add_zero _).symm fun _ => rfl
  | lock str =>
      cases spinlock with
      | false =>
          cases h
          exact .acquire rfl rfl rfl
      | true =>
          cases h
          exact does_move hok id id (add_zero _).symm hok.running.masked
  | print str =>
      cases str with
      | nil =>
          cases h
          exact .finish rfl rfl
      | cons a str =>
          cases h
          exact .put rfl rfl
  | unlock =>
      cases h
      exact .release rfl rfl
  | sti =>
      cases h
      exact does_move hok id id (add_zero _).symm fun h => h.elim

/-- An interrupt is taken where the flag is set, so not between `cli` and `sti`. -/
theorem does_of_interrupt (hok : c.Ok) (h : c.step spinlock .interrupt = some r) :
    Does spinlock c .interrupt r := by
  obtain ⟨⟨iflag, top, below⟩, suspended⟩ := c
  cases iflag with
  | false => cases h
  | true =>
      cases h
      have hopen : ¬ top.Masked := fun hmasked => Bool.noConfusion (hok.running.masked hmasked)
      refine .quiet (fun hin => hopen hin.masked) id ?_ ⟨⟨fun h => h.elim, ?_⟩, hok.suspended⟩
      · simp only [Cpu.waiting, Thread.waiting, List.map_cons, List.sum_cons, Site.waiting,
          KprintEvent.called, zero_add, add_zero]
      · exact List.forall_mem_cons.mpr ⟨hopen, hok.running.below⟩

/-- `iretq` goes back to where the interrupt was taken. -/
theorem does_of_iretq (hok : c.Ok) (h : c.step spinlock .iretq = some r) :
    Does spinlock c .iretq r := by
  obtain ⟨⟨iflag, top, below⟩, suspended⟩ := c
  cases top with
  | outside =>
      cases below with
      | nil => cases h
      | cons site below =>
          cases h
          obtain ⟨hsite, hbelow⟩ := List.forall_mem_cons.mp hok.running.below
          refine .quiet id (fun hin => hsite hin.masked) ?_
            ⟨⟨fun h => absurd h hsite, hbelow⟩, hok.suspended⟩
          simp only [Cpu.waiting, Thread.waiting, List.map_cons, List.sum_cons, Site.waiting,
            KprintEvent.called, zero_add, add_zero]
  | _ => cases h

/-- One thread takes the place of another. -/
theorem sum_set {α β : Type*} [AddCommMonoid β] (f : α → β) (x : α) {l : List α} {k : Nat} {y : α}
    (h : l[k]? = some y) : f y + ((l.set k x).map f).sum = f x + (l.map f).sum := by
  induction l generalizing k with
  | nil => cases h
  | cons z l ih =>
      cases k with
      | zero =>
          obtain rfl : z = y := Option.some.inj h
          simp only [List.set_cons_zero, List.map_cons, List.sum_cons]
          exact add_left_comm _ _ _
      | succ k =>
          simp only [List.set_cons_succ, List.map_cons, List.sum_cons]
          rw [add_left_comm, ih h, add_left_comm]

/-- The processor goes on in another thread, which is outside of `kprint` or in front of `cli`. -/
theorem does_of_switch {k : Nat} (hok : c.Ok) (h : c.step spinlock (.switch k) = some r) :
    Does spinlock c (.switch k) r := by
  obtain ⟨⟨iflag, top, below⟩, suspended⟩ := c
  cases top with
  | outside =>
      cases hk : suspended[k]? with
      | none => simp only [Cpu.step, hk, reduceCtorEq] at h
      | some t =>
          simp only [Cpu.step, hk, Option.some.injEq] at h
          subst h
          obtain ⟨ht, hopen⟩ := hok.suspended t (List.mem_of_getElem? hk)
          refine .quiet id (fun hin => hopen hin.masked) ?_ ⟨ht, fun t' ht' => ?_⟩
          · exact (sum_set Thread.waiting _ hk).trans (add_zero _).symm
          · rcases List.mem_or_eq_of_mem_set ht' with hmem | rfl
            · exact hok.suspended t' hmem
            · exact ⟨hok.running, id⟩
  | _ => cases h

/-- **The steps of a processor.** -/
theorem does_of_step (hok : c.Ok) (h : c.step spinlock e = some r) : Does spinlock c e r := by
  cases e with
  | exec => exact does_of_exec hok h
  | interrupt => exact does_of_interrupt hok h
  | iretq => exact does_of_iretq hok h
  | switch k => exact does_of_switch hok h
  | kprint str =>
      obtain ⟨⟨iflag, top, below⟩, suspended⟩ := c
      cases top with
      | outside =>
          cases h
          exact does_move hok id id (zero_add _).symm fun h => h.elim
      | _ => cases h
  | flag iflag =>
      obtain ⟨⟨iflag₀, top, below⟩, suspended⟩ := c
      cases top with
      | outside =>
          cases h
          exact does_move hok id id (add_zero _).symm fun h => h.elim
      | _ => cases h
  | create iflag =>
      obtain ⟨⟨iflag₀, top, below⟩, suspended⟩ := c
      cases top with
      | outside =>
          cases h
          refine .quiet id id ?_
            ⟨hok.running, List.forall_mem_cons.mpr ⟨⟨⟨?_, ?_⟩, id⟩, hok.suspended⟩⟩
          · simp only [Cpu.waiting, Thread.waiting, List.map_cons, List.sum_cons, Site.waiting,
              KprintEvent.called, zero_add, add_zero, List.map_nil, List.sum_nil]
          · exact fun h => h.elim
          · exact fun site h => absurd h List.not_mem_nil
      | _ => cases h

end Steps

/-! ### The machine -/

section Machine

variable {n : Nat} {s s' : Machine n} {a : Fin n × KprintEvent} {i : Fin n} {c : Cpu}
  {spinlock : Bool} {console : List Nat}

/-- The machine `s` with another processor `i`. -/
def Machine.goto (s : Machine n) (spinlock : Bool) (printed : List Nat) (i : Fin n) (c : Cpu) :
    Machine n :=
  ⟨spinlock, s.console ++ printed, Function.update s.cpu i c⟩

@[simp] theorem goto_cpu_self {printed : List Nat} :
    (s.goto spinlock printed i c).cpu i = c := Function.update_self ..

theorem goto_cpu_ne {printed : List Nat} {j : Fin n} (h : j ≠ i) :
    (s.goto spinlock printed i c).cpu j = s.cpu j := Function.update_of_ne h ..

theorem ok_goto {printed : List Nat} (h : ∀ j, (s.cpu j).Ok) (hc : c.Ok) (j : Fin n) :
    ((s.goto spinlock printed i c).cpu j).Ok := by
  by_cases hj : j = i
  · subst hj
    rwa [goto_cpu_self]
  · rw [goto_cpu_ne hj]
    exact h j

/-- Holders are the same where `i` holds the lock as it did. -/
theorem Inv.goto_same {printed : List Nat} (h : Inv s) (hc : c.Ok)
    (hsame : c.running.top.Holding ↔ (s.cpu i).running.top.Holding) :
    Inv (s.goto s.spinlock printed i c) := by
  have hall : ∀ j, ((s.goto s.spinlock printed i c).cpu j).running.top.Holding ↔
      (s.cpu j).running.top.Holding := by
    intro j
    by_cases hj : j = i
    · subst hj
      rwa [goto_cpu_self]
    · rw [goto_cpu_ne hj]
  refine ⟨ok_goto h.ok hc, ?_, fun j k hj hk => h.alone j k ((hall j).mp hj) ((hall k).mp hk)⟩
  exact h.holder.trans (exists_congr fun j => (hall j).symm)

/-- While the lock is free, nobody is between `lock` and `unlock`. -/
theorem Inv.none_holds (h : Inv s) (hfree : s.spinlock = false) (j : Fin n) :
    ¬ (s.cpu j).running.top.Holding := by
  intro hj
  exact Bool.noConfusion (hfree.symm.trans (h.holder.mpr ⟨j, hj⟩))

/-- `i` takes the free lock. -/
theorem Inv.goto_acquire {printed : List Nat} (h : Inv s) (hc : c.Ok) (hfree : s.spinlock = false)
    (hin : c.running.top.Holding) : Inv (s.goto true printed i c) := by
  have honly : ∀ j, ((s.goto true printed i c).cpu j).running.top.Holding → j = i := by
    intro j hj
    by_contra hne
    rw [goto_cpu_ne hne] at hj
    exact h.none_holds hfree j hj
  refine ⟨ok_goto h.ok hc, ⟨fun _ => ⟨i, ?_⟩, fun _ => rfl⟩, ?_⟩
  · rwa [goto_cpu_self]
  · intro j k hj hk
    rw [honly j hj, honly k hk]

/-- `i`, which holds the lock, gives it back. -/
theorem Inv.goto_release {printed : List Nat} (h : Inv s) (hc : c.Ok)
    (hwas : (s.cpu i).running.top.Holding) (hout : ¬ c.running.top.Holding) :
    Inv (s.goto false printed i c) := by
  have hnone : ∀ j, ¬ ((s.goto false printed i c).cpu j).running.top.Holding := by
    intro j hj
    by_cases hne : j = i
    · subst hne
      rw [goto_cpu_self] at hj
      exact hout hj
    · rw [goto_cpu_ne hne] at hj
      exact hne (h.alone j i hj hwas)
  refine ⟨ok_goto h.ok hc, ⟨fun h => Bool.noConfusion h, ?_⟩, fun j _ hj => (hnone j hj).elim⟩
  rintro ⟨j, hj⟩
  exact (hnone j hj).elim

/-- The running thread goes on between `cli` and `sti`. -/
theorem Cpu.Ok.move {site : Site} (h : c.Ok) (hmasked : c.running.top.Masked) :
    Cpu.Ok { c with running.top := site } :=
  ⟨⟨fun _ => h.running.masked hmasked, h.running.below⟩, h.suspended⟩

/-- **The steps of the machine.** -/
theorem Inv.does (h : Inv s) (hs : Step s a s') :
    ∃ r, Does s.spinlock (s.cpu a.1) a.2 r ∧ s' = s.goto r.spinlock r.printed a.1 r.after := by
  obtain ⟨r, hr, rfl⟩ := hs
  exact ⟨r, does_of_step (h.ok a.1) hr, rfl⟩

/-- **Every step keeps the invariant.** -/
theorem inv_step (h : Inv s) (hs : Step s a s') : Inv s' := by
  obtain ⟨r, hr, rfl⟩ := h.does hs
  have hok := h.ok a.1
  cases hr with
  | quiet before after waiting ok => exact h.goto_same ok (iff_of_false after before)
  | acquire he htop hfree =>
      exact h.goto_acquire (hok.move (by rw [htop]; trivial)) hfree trivial
  | put he htop =>
      refine h.goto_same (hok.move (by rw [htop]; trivial)) (iff_of_true trivial ?_)
      rw [htop]
      trivial
  | finish he htop =>
      refine h.goto_same (hok.move (by rw [htop]; trivial)) (iff_of_true trivial ?_)
      rw [htop]
      trivial
  | release he htop =>
      refine h.goto_release (hok.move (by rw [htop]; trivial)) ?_ id
      rw [htop]
      trivial

theorem inv_start : Inv (start n) :=
  ⟨fun _ => ⟨⟨fun h => h.elim, fun _ h => absurd h List.not_mem_nil⟩,
      fun _ h => absurd h List.not_mem_nil⟩,
    ⟨fun h => Bool.noConfusion h, fun ⟨_, h⟩ => h.elim⟩, fun _ _ h => h.elim⟩

/-! ### The console -/

/-- What the holder of the lock has still to print. -/
def Machine.rest (s : Machine n) : List Nat :=
  ((List.finRange n).map fun i => (s.cpu i).running.top.rest).flatten

/-- The strings that a run passes to `kprint`. -/
def called : List (Fin n × KprintEvent) → Multiset (List Nat)
  | [] => 0
  | a :: as => a.2.called + called as

theorem Site.rest_of_not_holding {site : Site} (h : ¬ site.Holding) : site.rest = [] := by
  cases site with
  | print str => exact absurd trivial h
  | _ => rfl

theorem rest_eq_nil (h : ∀ i, ¬ (s.cpu i).running.top.Holding) : s.rest = [] := by
  rw [Machine.rest, List.flatten_eq_nil_iff, List.forall_mem_map]
  exact fun i _ => Site.rest_of_not_holding (h i)

/-- What is left to print is left to the holder. -/
theorem Inv.rest_eq (h : Inv s) (hi : (s.cpu i).running.top.Holding) :
    s.rest = (s.cpu i).running.top.rest := by
  obtain ⟨before, behind, hsplit⟩ := List.append_of_mem (List.mem_finRange i)
  have hnodup := List.nodup_finRange n
  rw [hsplit, List.nodup_middle, List.nodup_cons, List.mem_append, not_or] at hnodup
  obtain ⟨⟨hbefore, hbehind⟩, -⟩ := hnodup
  have hnil : ∀ l : List (Fin n), i ∉ l →
      (l.map fun j => (s.cpu j).running.top.rest).flatten = [] := by
    intro l hl
    rw [List.flatten_eq_nil_iff, List.forall_mem_map]
    intro j hj
    refine Site.rest_of_not_holding fun hin => hl ?_
    rwa [h.alone i j hi hin]
  rw [Machine.rest, hsplit, List.map_append, List.map_cons, List.flatten_append, List.flatten_cons,
    hnil before hbefore, hnil behind hbehind, List.nil_append, List.append_nil]

/-- Nothing is left to print by a processor that does not hold the lock, before and after. -/
theorem rest_goto {printed : List Nat} (before : ¬ (s.cpu i).running.top.Holding)
    (after : ¬ c.running.top.Holding) : (s.goto spinlock printed i c).rest = s.rest := by
  rw [Machine.rest, Machine.rest]
  congr 1
  refine List.map_congr_left fun j _ => ?_
  by_cases hj : j = i
  · subst hj
    rw [goto_cpu_self, Site.rest_of_not_holding before, Site.rest_of_not_holding after]
  · rw [goto_cpu_ne hj]

/-- The strings that wait on the processor `i` are exchanged. -/
theorem waiting_goto {printed : List Nat} :
    (s.goto spinlock printed i c).waiting + (s.cpu i).waiting = s.waiting + c.waiting := by
  have hrest : ∑ j ∈ Finset.univ.erase i, ((s.goto spinlock printed i c).cpu j).waiting =
      ∑ j ∈ Finset.univ.erase i, (s.cpu j).waiting := by
    refine Finset.sum_congr rfl fun j hj => ?_
    rw [goto_cpu_ne (Finset.ne_of_mem_erase hj)]
  rw [Machine.waiting, Machine.waiting, ← Finset.add_sum_erase _ _ (Finset.mem_univ i),
    ← Finset.add_sum_erase (a := i) Finset.univ (fun j => (s.cpu j).waiting) (Finset.mem_univ i),
    goto_cpu_self, hrest]
  ac_rfl

/-- What the console gets, in a step or a run: whole strings, each of them one that waited. -/
def Grows (s s' : Machine n) (strs : List (List Nat)) (called : Multiset (List Nat)) : Prop :=
  s'.console ++ s'.rest = s.console ++ s.rest ++ strs.flatten ∧
    Multiset.ofList strs + s'.waiting = s.waiting + called

/-- The strings that wait on the processor `i` change, and so do the machine's. -/
theorem waiting_goto_of {printed : List Nat} {m m' : Multiset (List Nat)}
    (h : m + c.waiting = (s.cpu i).waiting + m') :
    m + (s.goto spinlock printed i c).waiting = s.waiting + m' := by
  refine add_right_cancel (b := (s.cpu i).waiting) ?_
  rw [add_assoc, waiting_goto, add_left_comm, h, ← add_assoc, add_right_comm]

/-- The running thread goes on at a place where other strings wait. -/
theorem waiting_top {site : Site} {m : Multiset (List Nat)}
    (h : m + site.waiting = c.running.top.waiting) :
    m + Cpu.waiting { c with running.top := site } = c.waiting + 0 := by
  simp only [Cpu.waiting, Thread.waiting, ← h, add_assoc, add_zero]

theorem Grows.goto {printed : List Nat} {strs : List (List Nat)} {m : Multiset (List Nat)}
    (hprinted : printed ++ (s.goto spinlock printed i c).rest = s.rest ++ strs.flatten)
    (hwaiting : Multiset.ofList strs + c.waiting = (s.cpu i).waiting + m) :
    Grows s (s.goto spinlock printed i c) strs m := by
  refine ⟨?_, waiting_goto_of hwaiting⟩
  rw [List.append_assoc, ← hprinted, ← List.append_assoc]
  rfl

/-- What is left to print by the holder after a step of it. -/
theorem Inv.rest_goto {printed : List Nat} {site : Site}
    (h : Inv (s.goto spinlock printed i { c with running.top := site })) (hin : site.Holding) :
    (s.goto spinlock printed i { c with running.top := site }).rest = site.rest := by
  rw [h.rest_eq (i := i) (by rwa [goto_cpu_self]), goto_cpu_self]

/-- **The console grows by whole strings**, in each step. -/
theorem grows_step (h : Inv s) (hs : Step s a s') :
    ∃ strs, Grows s s' strs a.2.called ∧ (s.spinlock = true → strs = []) := by
  have h' := inv_step h hs
  obtain ⟨r, hr, rfl⟩ := h.does hs
  obtain ⟨i, e⟩ := a
  cases hr with
  | quiet before after waiting ok =>
      refine ⟨[], .goto ?_ ((zero_add _).trans waiting), fun _ => rfl⟩
      rw [rest_goto before after, List.flatten_nil, List.append_nil, List.nil_append]
  | @acquire str he htop hfree =>
      subst he
      refine ⟨[str], .goto ?_ (waiting_top (by rw [htop]; rfl)),
        fun h => Bool.noConfusion (hfree.symm.trans h)⟩
      rw [rest_eq_nil (h.none_holds hfree), List.flatten_singleton, List.nil_append,
        List.nil_append]
      exact Inv.rest_goto h' trivial
  | put he htop =>
      subst he
      refine ⟨[], .goto ?_ (waiting_top (by rw [htop]; rfl)), fun _ => rfl⟩
      rw [h.rest_eq (i := i) (by rw [htop]; trivial), htop, List.flatten_nil, List.append_nil]
      exact congrArg (_ :: ·) (Inv.rest_goto h' trivial)
  | finish he htop =>
      subst he
      refine ⟨[], .goto ?_ (waiting_top (by rw [htop]; rfl)), fun _ => rfl⟩
      rw [h.rest_eq (i := i) (by rw [htop]; trivial), htop]
      exact Inv.rest_goto h' trivial
  | release he htop =>
      subst he
      refine ⟨[], .goto ?_ (waiting_top (by rw [htop]; rfl)), fun _ => rfl⟩
      rw [h.rest_eq (i := i) (by rw [htop]; trivial), htop]
      exact rest_eq_nil (h'.none_holds rfl)

/-- **The console grows by whole strings**: those whose calls have taken the lock. -/
theorem grows_run {as : List (Fin n × KprintEvent)} (h : Inv s) (hrun : Run Step s as s') :
    ∃ strs, Grows s s' strs (called as) := by
  induction hrun with
  | nil s =>
      exact ⟨[], (List.append_nil _).symm, (zero_add _).trans (add_zero _).symm⟩
  | cons hs _ ih =>
      obtain ⟨strs₁, ⟨hconsole₁, hwaiting₁⟩, -⟩ := grows_step h hs
      obtain ⟨strs₂, hconsole₂, hwaiting₂⟩ := ih (inv_step h hs)
      refine ⟨strs₁ ++ strs₂, ?_, ?_⟩
      · rw [hconsole₂, hconsole₁, List.flatten_append, List.append_assoc]
      · rw [← Multiset.coe_add, add_assoc, hwaiting₂, ← add_assoc, hwaiting₁, add_assoc]
        rfl

/-- **The strings on the console are whole.**  At any two moments of a run, what is printed between
them is the rest of the string of who held the lock, and then, in the order in which they took it,
the strings of other calls, the last one up to what its holder has still to print; each string
passed to `kprint` is one of them just once, or it still waits.  While the lock is free, nothing is
left to print. -/
theorem console_eq {as bs : List (Fin n × KprintEvent)} (hrun : Run Step (start n) as s)
    (hrun' : Run Step s bs s') : (s'.spinlock = false → s'.rest = []) ∧
      ∃ strs : List (List Nat),
        s'.console ++ s'.rest = s.console ++ s.rest ++ strs.flatten ∧
        Multiset.ofList strs + s'.waiting = s.waiting + called bs := by
  have h : Inv s := hrun.invariant inv_step inv_start
  have h' : Inv s' := hrun'.invariant inv_step h
  exact ⟨fun hfree => rest_eq_nil (h'.none_holds hfree), grows_run h hrun'⟩

/-- Two processors that print at the same time: the first takes the lock, and the second spins. -/
theorem console_eq_two : ∃ s s' : Machine 2,
    (s.console, s.rest) = ([], [72]) ∧ (s'.console, s'.rest) = ([72], [73]) ∧
      (s'.spinlock = false → s'.rest = []) ∧
      ∃ strs : List (List Nat),
        s'.console ++ s'.rest = s.console ++ s.rest ++ strs.flatten ∧
        Multiset.ofList strs + s'.waiting =
          s.waiting + called (List.replicate 4 ((0 : Fin 2), .exec) ++ [(1, .exec)]) :=
  ⟨_, _, rfl, rfl, console_eq
    (.cons (a := (0, .kprint [72])) ⟨_, rfl, rfl⟩ <|
      .cons (a := (1, .kprint [73])) ⟨_, rfl, rfl⟩ <| .cons (a := (0, .exec)) ⟨_, rfl, rfl⟩ <|
      .cons (a := (1, .exec)) ⟨_, rfl, rfl⟩ <| .cons (a := (0, .exec)) ⟨_, rfl, rfl⟩ <|
      .cons (a := (1, .exec)) ⟨_, rfl, rfl⟩ <| .nil _)
    (.cons ⟨_, rfl, rfl⟩ <| .cons ⟨_, rfl, rfl⟩ <| .cons ⟨_, rfl, rfl⟩ <|
      .cons ⟨_, rfl, rfl⟩ <| .cons ⟨_, rfl, rfl⟩ <| .nil _)⟩

/-! ### The lock is given back -/

/-- The steps of its processor until the holder has given the lock back. -/
def Site.work : Site → Nat
  | .print str => str.length + 2
  | .unlock => 1
  | _ => 0

theorem Site.work_pos {site : Site} (h : site.Holding) : 0 < site.work := by
  cases site with
  | print str => exact Nat.succ_pos _
  | unlock => exact Nat.one_pos
  | _ => exact h.elim

/-- The processor of the holder does nothing but `kprint`. -/
theorem Inv.holder_step {e : KprintEvent} (h : Inv s) (hi : (s.cpu i).running.top.Holding)
    (hs : Step s (i, e) s') : e = .exec ∧ (s'.spinlock = false ∨
      (s'.cpu i).running.top.Holding ∧
        (s'.cpu i).running.top.work + 1 = (s.cpu i).running.top.work) := by
  obtain ⟨r, hr, rfl⟩ := h.does hs
  cases hr with
  | quiet before => exact absurd hi before
  | acquire he htop =>
      rw [htop] at hi
      exact hi.elim
  | put he htop =>
      refine ⟨he, .inr ?_⟩
      rw [htop, goto_cpu_self]
      exact ⟨trivial, rfl⟩
  | finish he htop =>
      refine ⟨he, .inr ?_⟩
      rw [htop, goto_cpu_self]
      exact ⟨trivial, rfl⟩
  | release he htop => exact ⟨he, .inl rfl⟩

/-- A step of another processor. -/
theorem Step.cpu_eq (hs : Step s a s') (hne : a.1 ≠ i) : s'.cpu i = s.cpu i := by
  obtain ⟨r, -, rfl⟩ := hs
  exact Function.update_of_ne (Ne.symm hne) ..

/-- **The lock is given back**, in every run in which its holder's processor takes the steps that
this needs, whatever the other processors do and whatever is pending on this one; until then just
what was left of its string is printed, and its processor does nothing but `kprint`: it takes no
interrupt and goes on in no other thread. -/
theorem lock_freed {as bs : List (Fin n × KprintEvent)} (hrun : Run Step (start n) as s)
    (hi : (s.cpu i).running.top.Holding) (hrun' : Run Step s bs s')
    (hsteps : (s.cpu i).running.top.work ≤ bs.countP (·.1 = i)) :
    ∃ bs₁ bs₂ s₁, bs = bs₁ ++ bs₂ ∧ Run Step s bs₁ s₁ ∧ Run Step s₁ bs₂ s' ∧
      s₁.spinlock = false ∧ s₁.console = s.console ++ s.rest ∧
      ∀ b ∈ bs₁, b.1 = i → b.2 = .exec := by
  have h : Inv s := hrun.invariant inv_step inv_start
  clear hrun
  induction hrun' with
  | nil s => exact absurd (Site.work_pos hi) (Nat.not_lt.mpr hsteps)
  | @cons s s₁ s' a bs hs hrun' ih =>
      have h₁ := inv_step h hs
      obtain ⟨strs, ⟨hconsole, -⟩, hstrs⟩ := grows_step h hs
      rw [hstrs (h.holder.mpr ⟨i, hi⟩), List.flatten_nil, List.append_nil] at hconsole
      -- the lock is given back further on
      have hlater (hi₁ : (s₁.cpu i).running.top.Holding)
          (hsteps₁ : (s₁.cpu i).running.top.work ≤ bs.countP (·.1 = i))
          (hexec : a.1 = i → a.2 = .exec) : ∃ bs₁ bs₂ s₂,
          a :: bs = bs₁ ++ bs₂ ∧ Run Step s bs₁ s₂ ∧ Run Step s₂ bs₂ s' ∧
          s₂.spinlock = false ∧ s₂.console = s.console ++ s.rest ∧
          ∀ b ∈ bs₁, b.1 = i → b.2 = .exec := by
        obtain ⟨bs₁, bs₂, s₂, rfl, hrun₁, hrun₂, hfree, hprinted, hexecs⟩ := ih hi₁ hsteps₁ h₁
        exact ⟨a :: bs₁, bs₂, s₂, rfl, .cons hs hrun₁, hrun₂, hfree, hprinted.trans hconsole,
          List.forall_mem_cons.mpr ⟨hexec, hexecs⟩⟩
      by_cases hne : a.1 = i
      · obtain ⟨j, e⟩ := a
        obtain rfl : j = i := hne
        simp only [List.countP_cons, decide_true, if_true] at hsteps
        obtain ⟨hexec, hnext⟩ := h.holder_step hi hs
        rcases hnext with hfree | ⟨hi₁, hwork⟩
        · refine ⟨[(j, e)], bs, s₁, rfl, .one hs, hrun', hfree, ?_, ?_⟩
          · rw [← hconsole, rest_eq_nil (h₁.none_holds hfree), List.append_nil]
          · exact List.forall_mem_singleton.mpr fun _ => hexec
        · exact hlater hi₁ (by omega) fun _ => hexec
      · rw [List.countP_cons_of_neg (by simpa using hne)] at hsteps
        rw [← hs.cpu_eq hne] at hi hsteps
        exact hlater hi hsteps fun heq => absurd heq hne

/-- The holder of the lock, interrupted by nothing, prints the one code point and gives it back. -/
theorem lock_freed_one : ∃ s s' : Machine 1, (s.console, s.rest) = ([], [72]) ∧
    ∃ bs₁ bs₂ s₁, List.replicate 3 ((0 : Fin 1), KprintEvent.exec) = bs₁ ++ bs₂ ∧
      Run Step s bs₁ s₁ ∧ Run Step s₁ bs₂ s' ∧
      s₁.spinlock = false ∧ s₁.console = s.console ++ s.rest ∧
      ∀ b ∈ bs₁, b.1 = 0 → b.2 = .exec := by
  refine ⟨_, _, rfl, lock_freed (i := 0)
    (.cons (a := (0, .kprint [72])) ⟨_, rfl, rfl⟩ <| .cons (a := (0, .exec)) ⟨_, rfl, rfl⟩ <|
      .cons (a := (0, .exec)) ⟨_, rfl, rfl⟩ <| .nil _) ?_
    (.cons ⟨_, rfl, rfl⟩ <| .cons ⟨_, rfl, rfl⟩ <| .cons ⟨_, rfl, rfl⟩ <| .nil _) ?_⟩
  · trivial
  · exact le_refl 3

/-- The running thread goes on at `site`. -/
def Cpu.at (c : Cpu) (site : Site) : Cpu := { c with running.top := site }

/-- A step of `i` after one. -/
theorem step_goto {printed out : List Nat} {site site' : Site} {spinlock' : Bool}
    (h : (c.at site).running.exec spinlock = some ⟨spinlock', out, (c.at site').running⟩) :
    Step (s.goto spinlock printed i (c.at site)) (i, .exec)
      (s.goto spinlock' (printed ++ out) i (c.at site')) := by
  refine ⟨⟨spinlock', out, c.at site'⟩, ?_, ?_⟩
  · simp only [goto_cpu_self, Cpu.step, Thread.step]
    exact congrArg (Option.bind · _) h
  · simp only [Machine.goto, Function.update_idem, List.append_assoc]

/-- The holder prints its string, and gives the lock back. -/
theorem run_print (s : Machine n) (i : Fin n) (c : Cpu) (spinlock : Bool)
    (printed str : List Nat) : ∃ as, Run Step (s.goto spinlock printed i (c.at (.print str))) as
      (s.goto false (printed ++ str) i (c.at .sti)) := by
  induction str generalizing printed with
  | nil =>
      have hend : Step (s.goto spinlock printed i (c.at (.print []))) (i, .exec)
          (s.goto spinlock (printed ++ []) i (c.at .unlock)) := step_goto rfl
      have hfree : Step (s.goto spinlock (printed ++ []) i (c.at .unlock)) (i, .exec)
          (s.goto false (printed ++ [] ++ []) i (c.at .sti)) := step_goto rfl
      rw [List.append_nil (printed ++ [])] at hfree
      exact ⟨_, .cons hend (.one hfree)⟩
  | cons ch str ih =>
      have hput : Step (s.goto spinlock printed i (c.at (.print (ch :: str)))) (i, .exec)
          (s.goto spinlock (printed ++ [ch]) i (c.at (.print str))) := step_goto rfl
      obtain ⟨as, hrun⟩ := ih (printed ++ [ch])
      rw [List.append_assoc] at hrun
      exact ⟨_, .cons hput hrun⟩

theorem goto_self : s.goto s.spinlock [] i (s.cpu i) = s := by
  simp only [Machine.goto, Function.update_eq_self, List.append_nil]

/-- The lock can be given back, if only its holder runs. -/
theorem run_free (h : Inv s) : ∃ as s', Run Step s as s' ∧ s'.spinlock = false ∧
    s'.console = s.console ++ s.rest ∧
    ∀ i, ¬ (s.cpu i).running.top.Holding → s'.cpu i = s.cpu i := by
  cases hlock : s.spinlock with
  | false =>
      refine ⟨[], s, .nil s, hlock, ?_, fun _ _ => rfl⟩
      rw [rest_eq_nil (h.none_holds hlock), List.append_nil]
  | true =>
      obtain ⟨j, hj⟩ := h.holder.mp hlock
      have hrun : ∃ as, Run Step s as (s.goto false s.rest j ((s.cpu j).at .sti)) := by
        rw [h.rest_eq hj]
        have hself : s.goto s.spinlock [] j ((s.cpu j).at (s.cpu j).running.top) = s := goto_self
        cases htop : (s.cpu j).running.top with
        | print str =>
            rw [htop] at hself
            have hprint := run_print s j (s.cpu j) s.spinlock [] str
            rwa [hself] at hprint
        | unlock =>
            rw [htop] at hself
            have hfree : Step (s.goto s.spinlock [] j ((s.cpu j).at .unlock)) (j, .exec)
              (s.goto false [] j ((s.cpu j).at .sti)) := step_goto rfl
            rw [hself] at hfree
            exact ⟨_, .one hfree⟩
        | _ =>
            rw [htop] at hj
            exact hj.elim
      obtain ⟨as, hrun⟩ := hrun
      refine ⟨as, _, hrun, rfl, rfl, fun i hi => goto_cpu_ne ?_⟩
      rintro rfl
      exact hi hj

/-- **No deadlock.**  From every state that a run reaches, a processor that wants the lock can get
it, and print its string, whole, behind what was left to print by then. -/
theorem kprint_prints {as : List (Fin n × KprintEvent)} {str : List Nat}
    (hrun : Run Step (start n) as s) (htop : (s.cpu i).running.top = .lock str) :
    ∃ bs s', Run Step s bs s' ∧ s'.spinlock = false ∧
      s'.console = s.console ++ s.rest ++ str ∧ s'.cpu i = (s.cpu i).at .sti := by
  have h : Inv s := hrun.invariant inv_step inv_start
  obtain ⟨bs₁, s₁, hrun₁, hfree, hconsole, hkeep⟩ := run_free h
  have hi : s₁.cpu i = s.cpu i := hkeep i (by rw [htop]; exact id)
  have hself : s₁.goto false [] i ((s.cpu i).at (.lock str)) = s₁ := by
    have hself := goto_self (s := s₁) (i := i)
    rw [hfree, hi] at hself
    rwa [Cpu.at, ← htop]
  have hget : Step (s₁.goto false [] i ((s.cpu i).at (.lock str))) (i, .exec)
      (s₁.goto true [] i ((s.cpu i).at (.print str))) := step_goto rfl
  rw [hself] at hget
  obtain ⟨bs₂, hrun₂⟩ := run_print s₁ i (s.cpu i) true [] str
  refine ⟨_, _, hrun₁.append (.cons hget hrun₂), rfl, ?_, goto_cpu_self⟩
  rw [← hconsole]
  rfl

/-- The second processor wants the lock, which the first one has. -/
theorem kprint_prints_two : ∃ s : Machine 2, (s.spinlock, s.console, s.rest) = (true, [], [72]) ∧
    ∃ bs s', Run Step s bs s' ∧ s'.spinlock = false ∧
      s'.console = s.console ++ s.rest ++ [73] ∧ s'.cpu 1 = (s.cpu 1).at .sti :=
  ⟨_, rfl, kprint_prints
    (.cons (a := (0, .kprint [72])) ⟨_, rfl, rfl⟩ <|
      .cons (a := (1, .kprint [73])) ⟨_, rfl, rfl⟩ <| .cons (a := (0, .exec)) ⟨_, rfl, rfl⟩ <|
      .cons (a := (1, .exec)) ⟨_, rfl, rfl⟩ <| .cons (a := (0, .exec)) ⟨_, rfl, rfl⟩ <| .nil _)
    rfl⟩

end Machine

end FrazzOS.Klibc
