import FrazzOS.Support.Loops
import Mathlib.Tactic.Common

/-!
# Devices — PS/2 commands

`ps2_send_command` and `ps2_init` of `devices/ps2.c`, over the port accesses they make.  The
controller is the stream of status bytes that its status register is read with.

The loop of `ps2_send_command` writes while the input buffer is full, and stops where it is empty.

* `whileStatus_eq_some`: what a loop on a status bit does, for a stream in which the bit is clear at
  some time.
* `sendCommand_not_handshake`: the command is never written just after the buffer was seen empty.
* `ps2Init_writes`: `ps2_init` sends the command once for each status byte with the input buffer
  full.
-/

namespace FrazzOS.Devices

open Loops

/-- An access of a port, with the byte read or written. -/
inductive PortAccess where
  | inb (port : BitVec 16) (byte : BitVec 8)
  | outb (port : BitVec 16) (byte : BitVec 8)
  deriving DecidableEq

open PortAccess

def ps2CommandPort : BitVec 16 := 0x64

def ps2DataPort : BitVec 16 := 0x60

def outBufferFull : BitVec 8 := 0x01

def inBufferFull : BitVec 8 := 0x02

def enableScanning : BitVec 8 := 0xf4

/-- `EINVARG`. -/
def einvarg : Int := -3

/-- `while (read_ps2_control_reg(mask)) body`: the accesses, and the number of status bytes read so
far. -/
def whileStatus (status : Nat → BitVec 8) (mask : BitVec 8) (body : Nat → PortAccess) :
    Nat → Nat → Option (List PortAccess × Nat)
  | 0,        _ => none
  | fuel + 1, k =>
      if status k &&& mask ≠ 0 then
        (whileStatus status mask body fuel (k + 1)).map fun r =>
          (inb ps2CommandPort (status k) :: body k :: r.1, r.2)
      else some ([inb ps2CommandPort (status k)], k + 1)

/-- `ps2_send_command`, from the `k`-th status byte on: its result, the accesses, and the number of
status bytes read so far. -/
def ps2SendCommand (status : Nat → BitVec 8) (command : BitVec 8) (mode : Int) (fuel k : Nat) :
    Option (Int × List PortAccess × Nat) :=
  if mode = ps2CommandPort.toNat then
    (whileStatus status inBufferFull (fun _ => outb ps2CommandPort command) fuel k).map (0, ·)
  else if mode = ps2DataPort.toNat then
    (whileStatus status inBufferFull (fun _ => outb ps2DataPort command) fuel k).map (0, ·)
  else some (einvarg, [], k)

/-- The port accesses of `ps2_init`; `data` are the bytes in the output buffer. -/
def ps2Init (status data : Nat → BitVec 8) (fuel : Nat) : Option (List PortAccess) := do
  let (drained, k) ← whileStatus status outBufferFull (fun k => inb ps2DataPort (data k)) fuel 0
  let (_, sent, _) ← ps2SendCommand status enableScanning ps2CommandPort.toNat fuel k
  return drained ++ sent

/-- A status byte with a bit clear. -/
def bitClear (mask byte : BitVec 8) : Bool := decide (byte &&& mask = 0)

/-- The access is a write. -/
def PortAccess.IsWrite : PortAccess → Prop
  | inb _ _ => False
  | outb _ _ => True

/-- The command goes to the port once, just after a status byte with the input buffer empty, and
nothing else is written. -/
def Handshake (port : BitVec 16) (command : BitVec 8) (trace : List PortAccess) : Prop :=
  ∃ before after byte, trace = before ++ inb ps2CommandPort byte :: outb port command :: after ∧
    byte &&& inBufferFull = 0 ∧ (∀ a ∈ before, ¬ a.IsWrite) ∧ ∀ a ∈ after, ¬ a.IsWrite

/-- `ps2_send_command` returns `0` after such a handshake. -/
def Sends (status : Nat → BitVec 8) (command : BitVec 8) (mode : Int) : Prop :=
  ∃ fuel trace k, ps2SendCommand status command mode fuel 0 = some (0, trace, k) ∧
    Handshake (BitVec.ofInt 16 mode) command trace

variable {status data : Nat → BitVec 8} {mask command byte : BitVec 8} {port : BitVec 16}
  {body : Nat → PortAccess} {fuel j k n : Nat} {trace before after : List PortAccess} {mode : Int}

/-- The accesses of `n` rounds from the `k`-th status byte on, and of the test that ends them. -/
def rounds (status : Nat → BitVec 8) (body : Nat → PortAccess) : Nat → Nat → List PortAccess
  | 0,     k => [inb ps2CommandPort (status k)]
  | n + 1, k => inb ps2CommandPort (status k) :: body k :: rounds status body n (k + 1)

/-- A loop on a status bit is a polling loop, with a round for each reading but the last. -/
theorem whileStatus_eq (fuel k : Nat) : whileStatus status mask body fuel k =
    (poll (bitClear mask) status fuel k).map fun j =>
      (rounds status body (j - k) k, j + 1) := by
  induction fuel generalizing k with
  | zero => rfl
  | succ fuel ih =>
      rw [whileStatus, poll]
      by_cases hidle : status k &&& mask = 0
      · have hready : bitClear mask (status k) = true := decide_eq_true hidle
        rw [if_neg (not_not_intro hidle), if_pos hready, Option.map_some, Nat.sub_self]
        rfl
      · have hbusy : ¬ bitClear mask (status k) = true := fun h => hidle (of_decide_eq_true h)
        rw [if_pos hidle, if_neg hbusy, ih, Option.map_map]
        refine Option.map_congr fun j hj => ?_
        have hle := (poll_eq_some_iff.mp hj).1.le
        rw [show j - k = j - (k + 1) + 1 by omega]
        rfl

/-- **What a loop does**: a round for each status byte with the bit set, up to the first one
without. -/
theorem whileStatus_eq_some {r : List PortAccess × Nat} :
    whileStatus status mask body fuel k = some r ↔
      ∃ j, First (bitClear mask) status k j ∧ j < k + fuel ∧
        r = (rounds status body (j - k) k, j + 1) := by
  rw [whileStatus_eq, Option.map_eq_some_iff]
  simp only [poll_eq_some_iff, and_assoc, eq_comm (b := r)]

/-- **Before every write of a round the status byte has the bit set.** -/
theorem busy_of_rounds (hbusy : ∀ i, k ≤ i → i < k + n → status i &&& mask ≠ 0)
    (h : rounds status body n k =
      before ++ inb ps2CommandPort byte :: outb port command :: after) :
    byte &&& mask ≠ 0 := by
  induction n generalizing k before with
  | zero =>
      -- the last test is followed by nothing
      have hlen := congrArg List.length h
      simp only [rounds, List.length_append, List.length_cons, List.length_nil] at hlen
      omega
  | succ n ih =>
      match before with
      | [] =>
          rw [rounds, List.nil_append, List.cons.injEq, inb.injEq] at h
          rw [← h.1.2]
          exact hbusy k (Nat.le_refl _) (by omega)
      | [a] =>
          -- a round starts with a read
          rw [rounds, List.singleton_append, List.cons.injEq, List.cons.injEq] at h
          cases n <;> cases h.2.2
      | a :: b :: before =>
          rw [rounds, List.cons_append, List.cons_append, List.cons.injEq, List.cons.injEq] at h
          exact ih (fun i hi hi' => hbusy i (by omega) (by omega)) h.2.2

/-- The number of writes of a loop that writes in each round. -/
theorem countP_rounds (command : BitVec 8) (port : BitVec 16) :
    (rounds status (fun _ => outb port command) n k).countP (fun a => a = outb port command) =
      n := by
  induction n generalizing k with
  | zero => rfl
  | succ n ih =>
      rw [rounds, List.countP_cons_of_neg (by simp), List.countP_cons_of_pos (by simp), ih]

/-- A loop that does not write. -/
theorem not_isWrite_of_rounds (hbody : ∀ k, ¬ (body k).IsWrite) :
    ∀ a ∈ rounds status body n k, ¬ a.IsWrite := by
  induction n generalizing k with
  | zero => exact List.forall_mem_singleton.mpr id
  | succ n ih =>
      rw [rounds, List.forall_mem_cons, List.forall_mem_cons]
      exact ⟨id, hbody k, ih⟩

/-- The port of a valid mode. -/
def ValidMode (mode : Int) : Prop := mode = ps2CommandPort.toNat ∨ mode = ps2DataPort.toNat

/-- **What `ps2_send_command` does** in a valid mode: a write of the command for each status byte
with the input buffer full, up to the first one without. -/
theorem ps2SendCommand_eq_some (hmode : ValidMode mode) {r : Int × List PortAccess × Nat} :
    ps2SendCommand status command mode fuel k = some r ↔
      ∃ j, First (bitClear inBufferFull) status k j ∧ j < k + fuel ∧
        r = (0, rounds status (fun _ => outb (BitVec.ofInt 16 mode) command) (j - k) k, j + 1) := by
  rw [ps2SendCommand]
  rcases hmode with rfl | rfl
  · rw [if_pos rfl]
    simp only [Option.map_eq_some_iff, whileStatus_eq_some]
    constructor
    · rintro ⟨-, ⟨j, hfirst, hj, rfl⟩, rfl⟩
      exact ⟨j, hfirst, hj, rfl⟩
    · rintro ⟨j, hfirst, hj, rfl⟩
      exact ⟨_, ⟨j, hfirst, hj, rfl⟩, rfl⟩
  · rw [if_neg (by decide), if_pos rfl]
    simp only [Option.map_eq_some_iff, whileStatus_eq_some]
    constructor
    · rintro ⟨-, ⟨j, hfirst, hj, rfl⟩, rfl⟩
      exact ⟨j, hfirst, hj, rfl⟩
    · rintro ⟨j, hfirst, hj, rfl⟩
      exact ⟨_, ⟨j, hfirst, hj, rfl⟩, rfl⟩

/-- No run of it is a handshake. -/
theorem not_handshake (hmode : ValidMode mode) {r : Int × List PortAccess × Nat}
    (h : ps2SendCommand status command mode fuel k = some r) :
    ¬ Handshake (BitVec.ofInt 16 mode) command r.2.1 := by
  obtain ⟨j, hfirst, -, rfl⟩ := (ps2SendCommand_eq_some hmode).mp h
  rintro ⟨before, after, byte, htrace, hclear, -⟩
  refine busy_of_rounds (fun i hi hi' => ?_) htrace hclear
  have hle := hfirst.le
  exact of_decide_eq_false (hfirst.before i hi (by omega))

/-- **`ps2_send_command` never does the handshake**, whatever the controller answers. -/
theorem sendCommand_not_handshake (status : Nat → BitVec 8) (command : BitVec 8) (mode : Int)
    (hmode : ValidMode mode) :
    ¬ Sends status command mode := by
  rintro ⟨fuel, trace, k, hrun, htrace⟩
  exact not_handshake hmode hrun htrace

/-- A controller that is idle. -/
theorem sendCommand_not_handshake_idle : ¬ Sends (fun _ => 0) enableScanning 0x64 :=
  sendCommand_not_handshake (fun _ => 0) enableScanning 0x64 (Or.inl rfl)

/-- To a controller that is idle the command is not written, and to one that is busy for two status
bytes it is written twice. -/
theorem sendCommand_idle_busy :
    ps2SendCommand (fun _ => 0) enableScanning 0x64 1 0 =
      some (0, [inb ps2CommandPort 0], 1) ∧
    ¬ Sends (fun _ => 0) enableScanning 0x64 ∧
    ¬ Sends (fun k => if k < 2 then 2 else 0) enableScanning 0x64 := by
  refine ⟨by decide, ?_, ?_⟩
  · rintro ⟨fuel, trace, k, hrun, htrace⟩
    exact not_handshake (Or.inl rfl) hrun htrace
  · rintro ⟨fuel, trace, k, hrun, htrace⟩
    exact not_handshake (Or.inl rfl) hrun htrace

/-- The writes of a loop that writes the same in each round. -/
theorem eq_of_isWrite_rounds {a : PortAccess}
    (ha : a ∈ rounds status (fun _ => outb port command) n k) (hwrite : a.IsWrite) :
    a = outb port command := by
  induction n generalizing k with
  | zero =>
      rw [List.mem_singleton.mp ha] at hwrite
      exact hwrite.elim
  | succ n ih =>
      rw [rounds, List.mem_cons, List.mem_cons] at ha
      rcases ha with rfl | rfl | ha
      · exact hwrite.elim
      · rfl
      · exact ih ha

/-- **What `ps2_init` writes**, to a controller whose output buffer gets empty, and whose input
buffer does so afterwards: the command, once for each status byte in between with the input buffer
full, and nothing else. -/
theorem ps2Init_writes {i : Nat} (hdrain : First (bitClear outBufferFull) status 0 j)
    (hsent : First (bitClear inBufferFull) status (j + 1) i) :
    ∃ fuel trace, ps2Init status data fuel = some trace ∧
      trace.countP (fun a => a = outb ps2CommandPort enableScanning) = i - (j + 1) ∧
      ∀ a ∈ trace, a.IsWrite → a = outb ps2CommandPort enableScanning := by
  have hle := hsent.le
  have hwhile : whileStatus status outBufferFull (fun k => inb ps2DataPort (data k)) (i + 1) 0 =
      some (rounds status (fun k => inb ps2DataPort (data k)) (j - 0) 0, j + 1) :=
    whileStatus_eq_some.mpr ⟨j, hdrain, by omega, rfl⟩
  have hsend : ps2SendCommand status enableScanning ps2CommandPort.toNat (i + 1) (j + 1) =
      some (0, rounds status (fun _ => outb ps2CommandPort enableScanning) (i - (j + 1)) (j + 1),
        i + 1) :=
    (ps2SendCommand_eq_some (Or.inl rfl)).mpr ⟨i, hsent, by omega, rfl⟩
  have hrun : ps2Init status data (i + 1) =
      some (rounds status (fun k => inb ps2DataPort (data k)) (j - 0) 0 ++
        rounds status (fun _ => outb ps2CommandPort enableScanning) (i - (j + 1)) (j + 1)) := by
    rw [ps2Init, hwhile, Option.bind_eq_bind, Option.bind_some]
    dsimp only
    rw [hsend]
    rfl
  have hreads := @not_isWrite_of_rounds status (fun k => inb ps2DataPort (data k)) 0 (j - 0)
    fun _ => id
  refine ⟨i + 1, _, hrun, ?_, ?_⟩
  · have hnone : (rounds status (fun k => inb ps2DataPort (data k)) (j - 0) 0).countP
        (fun a => a = outb ps2CommandPort enableScanning) = 0 := by
      rw [List.countP_eq_zero]
      rintro a ha heq
      obtain rfl := of_decide_eq_true heq
      exact hreads _ ha trivial
    rw [List.countP_append, hnone, Nat.zero_add]
    exact countP_rounds enableScanning _
  · intro a ha hwrite
    rcases List.mem_append.mp ha with ha | ha
    · exact absurd hwrite (hreads a ha)
    · exact eq_of_isWrite_rounds ha hwrite

/-- A byte waits in the output buffer, and the input buffer is full for two status bytes. -/
theorem ps2Init_writes_two : ∃ fuel trace,
    ps2Init (fun k => if k = 0 then 1 else if k < 4 then 2 else 0) (fun _ => 0xfa) fuel =
      some trace ∧
    trace.countP (fun a => a = outb ps2CommandPort enableScanning) = 4 - (1 + 1) ∧
    ∀ a ∈ trace, a.IsWrite → a = outb ps2CommandPort enableScanning :=
  ps2Init_writes ⟨by decide, by decide, by decide⟩ ⟨by decide, by decide, by decide⟩

end FrazzOS.Devices
