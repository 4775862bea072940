import FrazzOS.Graphics.Legible
import FrazzOS.Klibc.Kprint

/-!
# Graphics — Kprint

What the screen shows while any number of processors print.  Each code point on the console of
`Klibc.Kprint` is a call of `term_print_char` by who holds the lock, so those calls come one after
the other; here they are made on the console with its pixels.

* `mem_called`: a code point on the console is one of a string that has been passed to `kprint`.
* `kprint_shows`: at every moment of every run the screen shows the last lines of the strings that
  have taken the lock, in that order, up to what the holder has still to print.
-/

namespace FrazzOS.Graphics

open Klibc Runs Ssfn

section Kprint

variable {n : Nat} {s : Machine n} {as : List (Fin n × KprintEvent)}

theorem waiting_start : (start n).waiting = 0 := Finset.sum_eq_zero fun _ _ => rfl

/-- From the start on: the console has the strings that have taken the lock. -/
theorem console_start (hrun : Run Step (start n) as s) : ∃ strs : List (List Nat),
    Multiset.ofList strs + s.waiting = called as ∧ s.console ++ s.rest = strs.flatten := by
  obtain ⟨strs, hconsole, hwaiting⟩ := grows_run inv_start hrun
  have hrest : (start n).rest = [] := rest_eq_nil fun _ => id
  refine ⟨strs, ?_, ?_⟩
  · rw [hwaiting, waiting_start, zero_add]
  · rw [hconsole, hrest]
    rfl

/-- A code point on the console is one of a string that has been passed to `kprint`. -/
theorem mem_called (hrun : Run Step (start n) as s) {unicode : Nat} (h : unicode ∈ s.console) :
    ∃ str ∈ called as, unicode ∈ str := by
  obtain ⟨strs, hstrs, hconsole⟩ := console_start hrun
  have hmem : unicode ∈ strs.flatten := hconsole ▸ List.mem_append_left s.rest h
  obtain ⟨str, hstr, hin⟩ := List.mem_flatten.mp hmem
  exact ⟨str, hstrs ▸ Multiset.mem_add.mpr (.inl (Multiset.mem_coe.mpr hstr)), hin⟩

/-- **The screen, while the processors print**: at every moment of every run it shows the last lines
of the page on which the strings are set whose calls have taken the lock, whole and in that order,
but for what the holder has still to print; while the lock is free, that is nothing. -/
theorem kprint_shows {src : Bytes} {v : Video} (hsrc : Upright src) (hv : v.Ok) (color : BitVec 32)
    (fb : Pixels) (hrun : Run Step (start n) as s) (hback : ∀ str ∈ called as, 8 ∉ str) :
    ∃ (strs : List (List Nat)) (t : Terminal),
      Multiset.ofList strs + s.waiting = called as ∧ s.console ++ s.rest = strs.flatten ∧
      (s.spinlock = false → s.rest = []) ∧
      s.console.foldlM (Terminal.printChar src v color) (bootTerminal v fb) = some t ∧
      ∀ r c, r < v.height → c < v.width →
        let p := Page.ofText (face src) v.width color s.console
        t.fb (v.screen.index r c) = p.pixel (face src) (p.top v.lines + r / 16) (r % 16) c := by
  have h : Klibc.Inv s := hrun.invariant inv_step inv_start
  obtain ⟨strs, hstrs, hconsole⟩ := console_start hrun
  have hback' : 8 ∉ s.console := by
    intro hmem
    obtain ⟨str, hstr, hin⟩ := mem_called hrun hmem
    exact hback str hstr hin
  obtain ⟨t, ht, hshows⟩ := @shows_text src v _ _ color hsrc hv s.console hback' (shows_boot hv fb)
  exact ⟨strs, t, hstrs, hconsole, fun hfree => rest_eq_nil (h.none_holds hfree), ht, hshows.pixels⟩

/-- Two processors that print: the second one waits while the first one's letter is on the screen. -/
theorem kprint_shows_two : ∃ s : Machine 2, s.console = [65] ∧
    ∃ (strs : List (List Nat)) (t : Terminal),
      Multiset.ofList strs + s.waiting =
        called [((0 : Fin 2), .kprint [65]), (1, .kprint [65]), (0, .exec), (1, .exec),
          (0, .exec), (0, .exec)] ∧
      s.console ++ s.rest = strs.flatten ∧ (s.spinlock = false → s.rest = []) ∧
      s.console.foldlM (Terminal.printChar smallFont smallVideo 0x734ab9)
        (bootTerminal smallVideo fun _ => 0) = some t ∧
      ∀ r c, r < smallVideo.height → c < smallVideo.width →
        let p := Page.ofText (face smallFont) smallVideo.width 0x734ab9 s.console
        t.fb (smallVideo.screen.index r c) =
          p.pixel (face smallFont) (p.top smallVideo.lines + r / 16) (r % 16) c := by
  have hrun : ∃ s : Machine 2, s.console = [65] ∧
      Run Step (start 2) [((0 : Fin 2), .kprint [65]), (1, .kprint [65]), (0, .exec), (1, .exec),
        (0, .exec), (0, .exec)] s :=
    ⟨_, rfl, .cons ⟨_, rfl, rfl⟩ <| .cons ⟨_, rfl, rfl⟩ <| .cons ⟨_, rfl, rfl⟩ <|
      .cons ⟨_, rfl, rfl⟩ <| .cons ⟨_, rfl, rfl⟩ <| .cons ⟨_, rfl, rfl⟩ <| .nil _⟩
  obtain ⟨s, hconsole, hrun⟩ := hrun
  refine ⟨s, hconsole, kprint_shows upright_smallFont ok_smallVideo 0x734ab9 (fun _ => 0) hrun ?_⟩
  intro str hstr
  obtain rfl : str = [65] := by
    simpa only [called, KprintEvent.called, Multiset.mem_add, Multiset.mem_singleton,
      Multiset.notMem_zero, or_false, false_or, or_self] using hstr
  exact fun hmem => absurd (List.mem_singleton.mp hmem) (by decide)

end Kprint

end FrazzOS.Graphics
