import Ucore.Console.Readline

/-!
# Reading a line while characters arrive

`readline` on the console of `Console.Input`, where bytes arrive and devices interrupt between the
calls of `cons_getc`.  A `Reading` is such a session, with what is going to happen before each of
the calls.  For the reader it is like a list of answers (`run_reading`), and `chunks` says which of
the characters that were fed these are.  So a line is read as it was fed, in every interleaving.

* `run_getc` — one call of `cons_getc` with what happens before it, which keeps `Session.Inv`.
* `chunks` — the first `n` calls return the first `n` answers, and keep the invariant of the queue,
  so that the answers are what was fed, in its order.
* `run_reading` — a client of the console is a client of these answers, so that `readline_edits` can
  be used for it.
* `readline_reads_fed` — the result, for a reader that keeps up and whose input has the end of a
  line.
-/

set_option autoImplicit false

namespace Ucore

open ConsCall

/-- A session, what happens before each of the next calls of `cons_getc`, and what has been put. -/
structure Reading where
  session : Session
  events : List (List InputEvent)
  out : List ℤ

/-- The console, while characters arrive. -/
def readingHandler : Client.Handler Ans Reading
  | .getc, ⟨_, [], _⟩ => .error .fuel
  | .getc, ⟨session, es :: events, out⟩ => do
    let session ← session.run (es ++ [.getc])
    return (session.returned.getLast?.getD 0, ⟨session, events, out⟩)
  | .putc c, s => .ok ((), { s with out := s.out ++ [c] })

namespace Session

/-- All events of some calls, with the calls. -/
def flat (events : List (List InputEvent)) : List InputEvent :=
  events.flatMap fun es => es ++ [.getc]

/-- What the calls return. -/
def answers : Session → List (List InputEvent) → List ℤ
  | _, [] => []
  | s, es :: events =>
    match s.run (es ++ [.getc]) with
    | .ok s' => s'.returned.getLast?.getD 0 :: answers s' events
    | .error _ => []

theorem run_cons (s : Session) (e : InputEvent) (es : List InputEvent) :
    s.run (e :: es) = s.step e >>= fun s => s.run es := List.foldlM_cons

theorem run_append (s : Session) (es es' : List InputEvent) :
    s.run (es ++ es') = s.run es >>= fun s => s.run es' := List.foldlM_append

/-- Keeping up, for a sequence that is another one after the first. -/
theorem KeepsUp.append {s : Session} {es es' : List InputEvent} (h : s.KeepsUp (es ++ es')) :
    s.KeepsUp es ∧ ∀ s', s.run es = .ok s' → s'.KeepsUp es' := by
  induction es generalizing s with
  | nil =>
    refine ⟨trivial, fun s' hs' => ?_⟩
    cases hs'
    exact h
  | cons e es ih =>
    obtain ⟨hlt, hup⟩ := h
    cases hstep : s.step e with
    | error err =>
      refine ⟨⟨hlt, by rw [hstep]; trivial⟩, fun s' hs' => ?_⟩
      rw [run_cons, hstep] at hs'
      cases hs'
    | ok s₁ =>
      rw [hstep] at hup
      obtain ⟨hes, hes'⟩ := ih hup
      refine ⟨⟨hlt, by rw [hstep]; exact hes⟩, fun s' hs' => hes' s' ?_⟩
      rw [run_cons, hstep] at hs'
      exact hs'

/-- Only `cons_getc` returns characters. -/
theorem step_returned {s s' : Session} {e : InputEvent} (he : e ≠ .getc) (h : s.step e = .ok s') :
    s'.returned = s.returned := by
  cases e with
  | serialByte b =>
    cases h
    rfl
  | kbdByte b =>
    cases h
    rfl
  | serialIntr =>
    obtain ⟨c, -, hc⟩ := Res.bind_eq_ok.1 h
    cases hc
    rfl
  | kbdIntr =>
    obtain ⟨c, -, hc⟩ := Res.bind_eq_ok.1 h
    cases hc
    rfl
  | getc => exact absurd rfl he

theorem run_returned {es : List InputEvent} (hes : ∀ e ∈ es, e ≠ .getc) {s s' : Session}
    (h : s.run es = .ok s') : s'.returned = s.returned := by
  induction es generalizing s with
  | nil =>
    cases h
    rfl
  | cons e es ih =>
    rw [run_cons] at h
    obtain ⟨s₁, hstep, h⟩ := Res.bind_eq_ok.1 h
    rw [ih (fun e he => hes e (List.mem_cons_of_mem _ he)) h]
    exact step_returned (hes e (List.mem_cons_self ..)) hstep

theorem getc_returned {s s' : Session} (h : s.step .getc = .ok s') :
    ∃ v, s'.returned = s.returned ++ [v] := by
  obtain ⟨⟨v, c⟩, -, hc⟩ := Res.bind_eq_ok.1 h
  cases hc
  exact ⟨v, rfl⟩

/-- One call of `cons_getc`, and what happens before it. -/
theorem run_getc {es : List InputEvent} (hes : ∀ e ∈ es, e ≠ .getc) {s s' : Session}
    (h : s.run (es ++ [.getc]) = .ok s') :
    s'.returned = s.returned ++ [s'.returned.getLast?.getD 0] := by
  rw [run_append] at h
  obtain ⟨s₁, hrun, h⟩ := Res.bind_eq_ok.1 h
  have hstep : s₁.step .getc = .ok s' := by
    rw [run_cons] at h
    obtain ⟨s₂, hs₂, h⟩ := Res.bind_eq_ok.1 h
    cases h
    exact hs₂
  obtain ⟨v, hv⟩ := getc_returned hstep
  rw [hv, run_returned hes hrun, List.getLast?_concat, Option.getD_some]

theorem answers_cons {s s' : Session} {es : List InputEvent} (h : s.run (es ++ [.getc]) = .ok s')
    (events : List (List InputEvent)) :
    answers s (es :: events) = s'.returned.getLast?.getD 0 :: answers s' events := by
  rw [answers, h]

theorem run_flat_cons {s s' : Session} {es : List InputEvent} (h : s.run (es ++ [.getc]) = .ok s')
    (events : List (List InputEvent)) : s.run (flat (es :: events)) = s'.run (flat events) := by
  have hflat : flat (es :: events) = (es ++ [.getc]) ++ flat events := rfl
  rw [hflat, run_append, h, Res.ok_bind]

/-- **The answers are what was fed.**  The first `n` calls return the first `n` answers, and keep
the invariant of the queue. -/
theorem chunks (n : ℕ) {events : List (List InputEvent)} (hes : ∀ es ∈ events, ∀ e ∈ es, e ≠ .getc)
    {s : Session} (hinv : s.Inv) (hup : s.KeepsUp (flat events)) :
    ∃ s', s.run (flat (events.take n)) = .ok s' ∧ s'.Inv ∧
      s'.returned = s.returned ++ (answers s events).take n := by
  induction events generalizing n s with
  | nil => exact ⟨s, by rw [List.take_nil]; rfl, hinv, by simp [answers]⟩
  | cons es events ih =>
    cases n with
    | zero => exact ⟨s, rfl, hinv, by rw [List.take_zero, List.append_nil]⟩
    | succ n =>
      have hflat : flat (es :: events) = (es ++ [.getc]) ++ flat events := rfl
      rw [hflat] at hup
      obtain ⟨hup₁, hup₂⟩ := hup.append
      obtain ⟨s₁, hrun₁, hinv₁, -⟩ := run_inv _ hinv hup₁
      obtain ⟨s', hrun', hinv', hret'⟩ :=
        ih n (fun es hmem => hes es (List.mem_cons_of_mem _ hmem)) hinv₁ (hup₂ s₁ hrun₁)
      refine ⟨s', ?_, hinv', ?_⟩
      · rw [List.take_succ_cons, run_flat_cons hrun₁, hrun']
      · rw [hret', answers_cons hrun₁, run_getc (hes es (List.mem_cons_self ..)) hrun₁,
          List.take_succ_cons, List.append_assoc, List.singleton_append, List.getLast?_concat,
          Option.getD_some]

theorem length_answers_le (s : Session) (events : List (List InputEvent)) :
    (answers s events).length ≤ events.length := by
  induction events generalizing s with
  | nil => exact Nat.le_refl 0
  | cons es events ih =>
    rw [answers]
    cases s.run (es ++ [.getc]) with
    | error e => exact Nat.zero_le _
    | ok s' => exact Nat.succ_le_succ (ih s')

end Session

open Session

/-- **A reader sees a list of answers.** -/
theorem run_reading {α : Type} (x : Reader α) {s : Session} {events : List (List InputEvent)}
    {out out' inp' : List ℤ} {a : α}
    (h : x.run ttyHandler ⟨answers s events, out⟩ = .ok (a, ⟨inp', out'⟩)) :
    ∃ n s', x.run readingHandler ⟨s, events, out⟩ = .ok (a, ⟨s', events.drop n, out'⟩) ∧
      s.run (flat (events.take n)) = .ok s' ∧ inp' = (answers s events).drop n := by
  induction x generalizing s events out with
  | ret b =>
    cases h
    exact ⟨0, s, rfl, rfl, rfl⟩
  | stop e => cases h
  | call c k ih =>
    cases c with
    | putc c => exact ih () h
    | getc =>
      cases events with
      | nil => cases h
      | cons es events =>
        cases hrun : s.run (es ++ [.getc]) with
        | error e =>
          rw [answers, hrun] at h
          cases h
        | ok s₁ =>
          rw [answers_cons hrun] at h
          obtain ⟨n, s', hx, hs', hinp⟩ := ih _ h
          refine ⟨n + 1, s', ?_, ?_, ?_⟩
          · rw [Client.run]
            change (s.run (es ++ [.getc]) >>= _) >>= _ = _
            rw [hrun]
            exact hx
          · rw [List.take_succ_cons, run_flat_cons hrun, hs']
          · rw [answers_cons hrun, List.drop_succ_cons, hinp]

/-- The first key that ends a line. -/
theorem exists_endsLine {l : List ℤ} (h : ∃ c ∈ l, EndsLine c) :
    ∃ cs nl post, l = cs ++ nl :: post ∧ (∀ c ∈ cs, ¬ EndsLine c) ∧ EndsLine nl := by
  have hfind : (l.find? fun c => EndsLine c).isSome := by
    obtain ⟨c, hc, hend⟩ := h
    exact List.find?_isSome.2 ⟨c, hc, decide_eq_true hend⟩
  obtain ⟨nl, hnl⟩ := Option.isSome_iff_exists.1 hfind
  obtain ⟨hend, cs, post, rfl, hcs⟩ := List.find?_eq_some_iff_append.1 hnl
  exact ⟨cs, nl, post, rfl, fun c hc => by simpa using hcs c hc, of_decide_eq_true hend⟩

/-- **A line is read as it was fed.**  Whatever bytes arrive and whichever interrupts happen before
each of the calls of `cons_getc`, as long as the buffer keeps up and one of the calls returns a key
that ends a line, `readline` returns the edited first line of what was fed, loses nothing that was
fed behind it, and a terminal shows the prompt and that line. -/
theorem readline_reads_fed [Overflow] (serialExists : Bool) (prompt : Option (List ℕ)) (buf : ℕ → ℕ)
    (events : List (List InputEvent)) (fuel : ℕ) (hprompt : ∀ s ∈ prompt, s.length < 2 ^ 31)
    (hes : ∀ es ∈ events, ∀ e ∈ es, e ≠ .getc)
    (hup : (Session.start serialExists).KeepsUp (flat events))
    (hend : ∃ c ∈ answers (Session.start serialExists) events, EndsLine c)
    (hfuel : events.length < fuel) :
    ∃ r s rest out cs nl, ∃ q : List ℕ,
      (readline fuel prompt buf).run readingHandler ⟨Session.start serialExists, events, []⟩ =
        .ok (r, ⟨s, rest, out ++ if nl < 0 then [] else [nl]⟩) ∧
      s.fed = cs ++ nl :: q.map ((↑) : ℕ → ℤ) ∧ s.console.cons.Queue q ∧
      (∀ c ∈ cs, ¬ EndsLine c) ∧ EndsLine nl ∧
      Result (cs.foldl (editKey (readBufSize - 1)) []) nl r ∧
      ∀ shown, out.foldl typed shown =
        (promptChars prompt).foldl typed shown ++ cs.foldl (editKey (readBufSize - 1)) [] := by
  have hchars : ∃ c ∈ chars (answers (Session.start serialExists) events), EndsLine c := by
    obtain ⟨c, hc, hline⟩ := hend
    have hne : c ≠ 0 := by
      rintro rfl
      exact absurd hline (by decide)
    exact ⟨c, List.mem_filter.2 ⟨hc, by simpa using hne⟩, hline⟩
  obtain ⟨cs, nl, post, hin, hcs, hnl⟩ := exists_endsLine hchars
  have hlen : (answers (Session.start serialExists) events).length < fuel :=
    Nat.lt_of_le_of_lt (length_answers_le _ _) hfuel
  obtain ⟨r, rest, hrun, hrest, hr⟩ := readline_spec hprompt buf hlen hin hcs hnl
  obtain ⟨n, s, hread, hs, hleft⟩ := run_reading _ hrun
  obtain ⟨s', hs', hinv, hret⟩ := chunks n hes (Session.inv_start serialExists) hup
  obtain rfl : s = s' := Except.ok.inj (hs.symm.trans hs')
  -- the calls that `readline` made returned the line, and nothing behind it
  have hgot : s.got = cs ++ [nl] := by
    have hall : s.got ++ post = (cs ++ [nl]) ++ post := by
      calc s.got ++ post
          = chars ((answers (Session.start serialExists) events).take n) ++
              chars ((answers (Session.start serialExists) events).drop n) := by
            rw [Session.got, hret, ← hrest, hleft]
            rfl
        _ = chars (answers (Session.start serialExists) events) := by
            rw [chars, chars, ← List.filter_append, List.take_append_drop]
            rfl
        _ = (cs ++ [nl]) ++ post := by rw [hin, List.append_assoc, List.singleton_append]
    exact List.append_cancel_right hall
  obtain ⟨q, hq, hfed⟩ := hinv.queue
  refine ⟨r, s, _, _, cs, nl, q, hread, ?_, hq, hcs, hnl, hr, typed_readline prompt _ cs⟩
  rw [hfed, hgot, List.append_assoc, List.singleton_append]

/-- An `a` and, after a call that returns nothing, the end of the line, at a prompt. -/
theorem readline_reads_fed_line : letI := Overflow.wrapping
    ∃ r s rest out cs nl, ∃ q : List ℕ,
    (readline 4 (some [62]) fun _ => 0).run readingHandler ⟨Session.start true,
      [[.serialByte 97#8, .serialIntr], [], [.serialByte 10#8]], []⟩ =
        .ok (r, ⟨s, rest, out ++ if nl < 0 then [] else [nl]⟩) ∧
      s.fed = cs ++ nl :: q.map ((↑) : ℕ → ℤ) ∧ s.console.cons.Queue q ∧
      (∀ c ∈ cs, ¬ EndsLine c) ∧ EndsLine nl ∧
      Result (cs.foldl (editKey (readBufSize - 1)) []) nl r ∧
      ∀ shown, out.foldl typed shown = (promptChars (some [62])).foldl typed shown ++
        cs.foldl (editKey (readBufSize - 1)) [] := by
  let _ := Overflow.wrapping
  refine readline_reads_fed true (some [62]) (fun _ => 0)
    [[.serialByte 97#8, .serialIntr], [], [.serialByte 10#8]] 4 (by decide) ?_ ?_ ?_ (by decide)
  · decide
  · exact ⟨by decide, by decide, by decide, by decide, by decide, by decide, trivial⟩
  · exact ⟨10, by decide, .inr (.inl rfl)⟩

end Ucore
