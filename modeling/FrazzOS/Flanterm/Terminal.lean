import FrazzOS.Flanterm.Backend
import FrazzOS.Flanterm.Putchar

/-!
# Flanterm — Terminal

The terminal on a backend: `flanterm_write` puts its bytes one after the other, and flushes.

* `Backend.out_congr`: the parser reads no more of a backend than the cursor.
* `putchar_yields`, `flantermWrite_yields`: on `fb.c` and on the screen the terminal does the same,
  byte by byte and write by write; after a write all that has been written is to be seen.
-/

namespace FrazzOS.Flanterm

open Faults

/-- A backend: its cursor and its colours, and what a call does. -/
structure Backend (S : Type) where
  pen : S → Pen
  call : Context → Call → S → Option S

/-- `backends/fb.c`. -/
def fbBackend (cfg : FbConfig) : Backend FbContext := ⟨FbContext.toPen, fbCall cfg⟩

/-- The screen. -/
def screenBackend (cfg : FbConfig) : Backend Screen := ⟨Screen.toPen, screenCall cfg⟩

/-- A terminal on a backend. -/
structure Terminal (S : Type) where
  ctx : Context
  state : S

section Run

variable {S : Type} (b : Backend S) (beyond : Nat → BitVec 32)

/-- Calls, one after the other, each in its context. -/
def Backend.perform (calls : List (Context × Call)) (s : S) : Option S :=
  calls.foldlM (fun s p => b.call p.1 p.2 s) s

/-- What `flanterm_putchar` does for a byte, at the cursor of the backend. -/
def Backend.out (t : Terminal S) (c : BitVec 8) : Option Out :=
  let pos := flantermFbGetCursorPos t.ctx (b.pen t.state)
  flantermPutchar beyond pos.1 pos.2 c ⟨t.ctx, []⟩

/-- `flanterm_putchar`, and the calls that it makes. -/
def Backend.putchar (t : Terminal S) (c : BitVec 8) : Option (Terminal S) := do
  let o ← b.out beyond t c
  return ⟨o.ctx, ← b.perform o.calls t.state⟩

/-- `flanterm_write`. -/
def Backend.flantermWrite (t : Terminal S) (buf : List (BitVec 8)) : Option (Terminal S) := do
  let t ← buf.foldlM (b.putchar beyond) t
  if t.ctx.autoflush then return { t with state := ← b.call t.ctx .doubleBufferFlush t.state }
  else return t

/-- One write after the other. -/
def Backend.writes (t : Terminal S) (bufs : List (List (BitVec 8))) : Option (Terminal S) :=
  bufs.foldlM (b.flantermWrite beyond) t

/-- The parser reads no more of a backend than where the cursor is. -/
theorem Backend.out_congr {T : Type} {b : Backend S} {b' : Backend T} {ctx : Context} {s : S} {t : T}
    (h : b.pen s = b'.pen t) (beyond : Nat → BitVec 32) (c : BitVec 8) :
    b.out beyond ⟨ctx, s⟩ c = b'.out beyond ⟨ctx, t⟩ c := by
  simp only [Backend.out, h]

/-- A byte, by what the parser does and what the calls do. -/
theorem Backend.putchar_eq {b : Backend S} {beyond : Nat → BitVec 32} {t : Terminal S}
    {c : BitVec 8} {o : Out} {s : S} (ho : b.out beyond t c = some o)
    (hs : b.perform o.calls t.state = some s) : b.putchar beyond t c = some ⟨o.ctx, s⟩ := by
  rw [Backend.putchar, ho, Option.bind_eq_bind, Option.bind_some, hs]
  rfl

end Run

/-- The terminal on `fb.c` and the one on the screen are in one state. -/
structure Agree (cfg : FbConfig) (base : Nat → BitVec 32) (rows cols : Nat)
    (t : Terminal FbContext) (u : Terminal Screen) : Prop where
  ctx : t.ctx = u.ctx
  ok : u.ctx.Ok rows cols
  refines : Refines cfg base rows cols t.state u.state

/-- All that has been written is to be seen. -/
def Flushed (u : Terminal Screen) : Prop := u.state = u.state.flush u.ctx

section Agree

variable {cfg : FbConfig} {base : Nat → BitVec 32} {rows cols : Nat} {beyond : Nat → BitVec 32}
  {t : Terminal FbContext} {u : Terminal Screen}

/-- The cursor is on the screen. -/
theorem getCursorPos_lt {ctx : Context} (h : ctx.Frame rows cols) (p : Pen) :
    (flantermFbGetCursorPos ctx p).2 < rows := by
  have hrows := h.rows_eq
  have hpos := h.rows_pos
  unfold flantermFbGetCursorPos
  dsimp only
  split <;> omega

/-- The calls for a byte. -/
theorem perform_yields (hfits : cfg.Fits rows cols) {calls : List (Context × Call)}
    (hcalls : ∀ p ∈ calls, p.1.Frame rows cols ∧ p.2.Legal) {s : FbContext} {v : Screen}
    (h : Refines cfg base rows cols s v) :
    Yields (fun v' => Yields (Refines cfg base rows cols · v') ((fbBackend cfg).perform calls s))
      ((screenBackend cfg).perform calls v) :=
  yields_simulation h fun p hp _ _ h => fbCall_yields (hcalls p hp).1 hfits (hcalls p hp).2 h

/-- **A byte.** -/
theorem putchar_yields (hfits : cfg.Fits rows cols) (h : Agree cfg base rows cols t u)
    (c : BitVec 8) :
    Yields (fun u' => Yields (Agree cfg base rows cols · u') ((fbBackend cfg).putchar beyond t c))
      ((screenBackend cfg).putchar beyond u c) := by
  obtain ⟨ctx, s⟩ := t
  obtain ⟨hctx, hok, href⟩ := h
  obtain rfl : ctx = u.ctx := hctx
  obtain ⟨o, ho, hgood⟩ : ∃ o, (screenBackend cfg).out beyond u c = some o ∧ o.Good rows cols :=
    good_flantermPutchar ⟨hok, List.forall_mem_nil _⟩ (getCursorPos_lt hok.toFrame _)
  have ho' : (fbBackend cfg).out beyond ⟨u.ctx, s⟩ c = some o :=
    (Backend.out_congr href.pen beyond c).trans ho
  obtain ⟨v', hv', s', hs', href'⟩ := perform_yields hfits hgood.calls href
  exact ⟨⟨o.ctx, v'⟩, Backend.putchar_eq ho hv', ⟨o.ctx, s'⟩, Backend.putchar_eq ho' hs',
    ⟨rfl, hgood.ok, href'⟩⟩

/-- A flush, on the screen. -/
theorem flushed_flush (u : Terminal Screen) :
    Flushed { u with state := u.state.flush u.ctx } := rfl

/-- **A write.** -/
theorem flantermWrite_yields (hfits : cfg.Fits rows cols) (h : Agree cfg base rows cols t u)
    (buf : List (BitVec 8)) :
    Yields (fun u' => Flushed u' ∧
        Yields (Agree cfg base rows cols · u') ((fbBackend cfg).flantermWrite beyond t buf))
      ((screenBackend cfg).flantermWrite beyond u buf) := by
  obtain ⟨u₁, hu₁, t₁, ht₁, h₁⟩ := yields_simulation (l := buf) h
    fun c _ _ _ h => @putchar_yields cfg base rows cols beyond _ _ hfits h c
  have hflush : (screenBackend cfg).call u₁.ctx .doubleBufferFlush u₁.state =
      some (u₁.state.flush u₁.ctx) := rfl
  obtain ⟨v, hv, s, hs, href⟩ := fbCall_yields h₁.ok.toFrame hfits (k := .doubleBufferFlush)
    trivial h₁.refines
  obtain rfl : v = u₁.state.flush u₁.ctx := (Option.some.inj hv).symm
  refine ⟨{ u₁ with state := u₁.state.flush u₁.ctx }, ?_, flushed_flush u₁,
    { t₁ with state := s }, ?_, h₁.ctx, h₁.ok, href⟩
  · rw [Backend.flantermWrite, hu₁, Option.bind_eq_bind, Option.bind_some, if_pos h₁.ok.autoflush,
      hflush]
    rfl
  · have hs' : (fbBackend cfg).call t₁.ctx .doubleBufferFlush t₁.state = some s := by
      rw [h₁.ctx]
      exact hs
    rw [Backend.flantermWrite, ht₁, Option.bind_eq_bind, Option.bind_some, h₁.ctx,
      if_pos h₁.ok.autoflush, ← h₁.ctx, hs']
    rfl

end Agree

end FrazzOS.Flanterm
