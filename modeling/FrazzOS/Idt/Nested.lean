import FrazzOS.Idt.Stub

/-!
# Idt — Nested

Whether a handler can be interrupted.  `kprint` ends with a `sti`, and `keyboard_handler` calls it
for every scancode.

`not_nested_iff`: in a run, up to where its handlers return, the flag stays 0 inside every handler
and none is interrupted, just where the run takes no keyboard interrupt.  What carries the one
direction is that all that is left of a timer interrupt has one `sti`, its stub's own
(`TimerOnly`); what carries the other, that a keyboard interrupt can only go on to the `sti` of
`kprint` (`Prints`).
-/

namespace FrazzOS.Idt
open Proc Devices Runs

/-- What is left of an interrupt comes to a `sti` inside the handler, with the flag 0 up to there. -/
inductive Prints : List Op → Prop where
  | sti {ops : List Op} : ops ≠ [.iretq] → Prints (.sti :: ops)
  | flag {op : Op} {ops : List Op} : op.flag false = some false → Prints ops → Prints (op :: ops)
  | keys {scancode : BitVec 8} {ops : List Op} : (∀ key, Prints (keyboardIrqHandler key ++ ops)) →
      Prints (.keyboardIrqHandler scancode :: ops)

/-- `keyboard_handler` prints every key. -/
theorem prints_keyboardIrqHandler (key : Key) (ops : List Op) :
    Prints (keyboardIrqHandler key ++ ops) :=
  .flag rfl (.flag rfl (.flag rfl (.flag rfl (.sti nofun))))

theorem prints_keyboardIrq (scancode : BitVec 8) : Prints (keyboardIrq scancode) :=
  .flag rfl (.keys fun key => prints_keyboardIrqHandler key _)

variable {beyond : Nat → BitVec 32}

/-- Every run from here, once its handlers go on, has a step that sets the flag inside a handler. -/
def Nests (beyond : Nat → BitVec 32) (s : Cpu) : Prop :=
  ∀ ts s', Run (Recorded (CpuStep beyond)) s ts s' →
    ∃ ts' s'', Run (Recorded (CpuStep beyond)) s' ts' s'' ∧ (∀ t ∈ ts', t.event = .exec) ∧
      ∃ t ∈ ts ++ ts', ¬ NotNested t

/-- A state that can only go on in the handler, by a step that nests or to a state that does. -/
theorem Nests.of_step {s : Cpu} (hex : ∃ s₁, CpuStep beyond s .exec s₁)
    (hall : ∀ e s₁, CpuStep beyond s e s₁ →
      e = .exec ∧ (¬ NotNested ⟨s, e, s₁⟩ ∨ Nests beyond s₁)) : Nests beyond s := by
  intro ts s' hrun
  cases hrun with
  | nil =>
      obtain ⟨s₁, hs⟩ := hex
      rcases (hall _ _ hs).2 with hbad | hnests
      · exact ⟨_, s₁, .one (recorded hs), by simp, ⟨s, .exec, s₁⟩, by simp, hbad⟩
      · obtain ⟨ts', s'', hrun, hexec, t, ht, hbad⟩ := hnests [] s₁ (.nil _)
        refine ⟨⟨s, .exec, s₁⟩ :: ts', s'', .cons (recorded hs) hrun, by simpa using hexec, t, ?_,
          hbad⟩
        exact List.mem_cons_of_mem _ ht
  | @cons _ s₁ _ t ts hs hrun =>
      obtain ⟨before, event, after⟩ := t
      obtain ⟨rfl, rfl, hs⟩ := hs
      rcases (hall _ _ hs).2 with hbad | hnests
      · exact ⟨[], s', .nil _, by simp, _, List.mem_cons_self, hbad⟩
      · obtain ⟨ts', s'', hrun', hexec, t, ht, hbad⟩ := hnests ts s' hrun
        exact ⟨ts', s'', hrun', hexec, t, List.mem_cons_of_mem _ ht, hbad⟩

/-- With the flag 0 the running interrupt goes on, and nothing else happens. -/
theorem exec_of_off {s s' : Cpu} {e : CpuEvent} {a : Activation} {rest : List Activation}
    (hs : CpuStep beyond s e s') (ha : s.active = a :: rest) (hoff : s.iflag = false) :
    e = .exec := by
  cases hs with
  | create hown _ => rw [ha] at hown; cases hown
  | work hown _ => rw [ha] at hown; cases hown
  | timer hon => rw [hoff] at hon; cases hon
  | keyboard hon => rw [hoff] at hon; cases hon
  | flag => rfl
  | iretq => rfl
  | keys => rfl
  | slice => rfl
  | switch => rfl

/-- A step that only changes the flag is all that its state can do. -/
theorem flag_of_exec {s s' : Cpu} {op : Op} {ops : List Op} {flag iflag : Bool}
    {rest : List Activation} (ha : s.active = ⟨op :: ops, flag⟩ :: rest)
    (hop : op.flag s.iflag = some iflag) (hs : CpuStep beyond s .exec s') :
    s' = { s with iflag := iflag, active := ⟨ops, flag⟩ :: rest } := by
  cases hs with
  | flag ha' hop' =>
      rw [ha] at ha'
      cases ha'
      rw [hop] at hop'
      cases hop'
      rfl
  | iretq ha' => rw [ha] at ha'; cases ha'; cases hop
  | keys ha' => rw [ha] at ha'; cases ha'; cases hop
  | slice ha' => rw [ha] at ha'; cases ha'; cases hop
  | switch ha' => rw [ha] at ha'; cases ha'; cases hop

/-- **An interrupt that prints nests.** -/
theorem Prints.nests {ops : List Op} (h : Prints ops) : ∀ {s : Cpu} {flag : Bool}
    {rest : List Activation}, s.active = ⟨ops, flag⟩ :: rest → s.iflag = false →
    Nests beyond s := by
  induction h with
  | @sti ops hne =>
      intro s flag rest ha hoff
      refine .of_step ⟨_, .flag ha rfl⟩ fun e s₁ hs => ?_
      obtain rfl := exec_of_off hs ha hoff
      obtain rfl := flag_of_exec ha rfl hs
      refine ⟨rfl, Or.inl fun hnot => ?_⟩
      have := hnot.quiet ⟨ops, flag⟩ List.mem_cons_self hne
      cases this
  | @flag op ops hop _ ih =>
      intro s flag rest ha hoff
      rw [← hoff] at hop
      refine .of_step ⟨_, .flag ha hop⟩ fun e s₁ hs => ?_
      obtain rfl := exec_of_off hs ha hoff
      obtain rfl := flag_of_exec ha hop hs
      exact ⟨rfl, Or.inr (ih rfl hoff)⟩
  | @keys scancode ops _ ih =>
      intro s flag rest ha hoff
      refine .of_step ⟨_, .keys ha⟩ fun e s₁ hs => ?_
      obtain rfl := exec_of_off hs ha hoff
      refine ⟨rfl, Or.inr ?_⟩
      cases hs with
      | flag ha' hop => rw [ha] at ha'; cases ha'; cases hop
      | iretq ha' => rw [ha] at ha'; cases ha'
      | keys ha' =>
          rw [ha] at ha'
          cases ha'
          exact ih _ rfl hoff
      | slice ha' => rw [ha] at ha'; cases ha'
      | switch ha' => rw [ha] at ha'; cases ha'

/-- A keyboard interrupt taken nests. -/
theorem nests_keyboard {s s' : Cpu} {scancode : BitVec 8}
    (hs : CpuStep beyond s (.keyboard scancode) s') : Nests beyond s' := by
  cases hs with
  | keyboard hon => exact (prints_keyboardIrq scancode).nests rfl rfl

/-- **Nesting of handlers.**  In a run of the tasks' code and of timer and keyboard interrupts, up
to where the handlers it has entered return, the flag stays 0 inside every handler and none is
interrupted, just where the run takes no keyboard interrupt. -/
theorem not_nested_iff (m : Machine) (keys : Modifiers) (iflag : Bool)
    {ts : List (Taken Cpu CpuEvent)} {s : Cpu}
    (hrun : Run (Recorded (CpuStep beyond)) (Cpu.start m keys iflag) ts s) :
    (∀ ts' s', Run (Recorded (CpuStep beyond)) s ts' s' → (∀ t ∈ ts', t.event = .exec) →
      ∀ t ∈ ts ++ ts', NotNested t) ↔ ∀ t ∈ ts, ∀ scancode, t.event ≠ .keyboard scancode := by
  constructor
  · intro hall t ht scancode hkey
    obtain ⟨hstep, ts₁, ts₂, rfl, hrest⟩ := hrun.of_mem ht
    rw [hkey] at hstep
    obtain ⟨ts', s', hrun', hexec, t', ht', hbad⟩ := nests_keyboard hstep ts₂ s hrest
    refine hbad (hall ts' s' hrun' hexec t' ?_)
    rw [List.append_assoc, List.cons_append]
    exact List.mem_append_right _ (List.mem_cons_of_mem _ ht')
  · intro hkeys ts' s' hrun' hexec
    have hall : ∀ t ∈ ts ++ ts', ∀ scancode, t.event ≠ .keyboard scancode := by
      intro t ht scancode
      rcases List.mem_append.mp ht with ht | ht
      · exact hkeys t ht scancode
      · rw [hexec t ht]
        exact nofun
    refine (hrun.append hrun').forall_of (fun h hq hs => ⟨h.step hq hs, ?_⟩)
      (timersUnnested_start m keys iflag) hall
    exact h.unnested.notNested h.timers.ownSti hs

/-- A timer interrupt on the boot machine is not nested. -/
theorem not_nested_timer : ∃ (ts : List (Taken Cpu CpuEvent)) (s : Cpu),
    Run (Recorded (CpuStep fun _ => 0)) (Cpu.start bootMachine noModifiers true) ts s ∧
    (∃ t ∈ ts, t.event = .timer 0) ∧
    ∀ ts' s', Run (Recorded (CpuStep fun _ => 0)) s ts' s' → (∀ t ∈ ts', t.event = .exec) →
      ∀ t ∈ ts ++ ts', NotNested t := by
  have hstep : CpuStep (fun _ => 0) (Cpu.start bootMachine noModifiers true) (.timer 0)
      ((Cpu.start bootMachine noModifiers true).interrupt (timerIrq 0)) := .timer rfl
  have hrun := Run.one (recorded hstep)
  refine ⟨_, _, hrun, ⟨_, List.mem_singleton_self _, rfl⟩, ?_⟩
  refine (not_nested_iff bootMachine noModifiers true hrun).mpr fun t ht scancode => ?_
  obtain rfl := List.mem_singleton.mp ht
  exact nofun

/-- The key of scancode `0x1e` sets the flag inside its handler. -/
theorem keyboard_nested : ¬ ∀ (beyond : Nat → BitVec 32) (m : Machine) (keys : Modifiers)
    (iflag : Bool) (ts : List (Taken Cpu CpuEvent)) (s : Cpu),
    Run (Recorded (CpuStep beyond)) (Cpu.start m keys iflag) ts s → ∀ t ∈ ts, NotNested t := by
  intro hall
  have hstep : CpuStep (fun _ => 0) (Cpu.start bootMachine noModifiers true) (.keyboard 0x1e)
      ((Cpu.start bootMachine noModifiers true).interrupt (keyboardIrq 0x1e)) := .keyboard rfl
  obtain ⟨ts', s', hrun, -, t, ht, hbad⟩ := nests_keyboard hstep [] _ (.nil _)
  exact hbad (hall _ _ _ _ _ _ (.cons (recorded hstep) hrun) t (List.mem_cons_of_mem _ ht))

end FrazzOS.Idt
