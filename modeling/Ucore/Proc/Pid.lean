import Ucore.Proc.Defs
import Mathlib.Data.Int.Interval

/-!
# Process numbers

`get_pid` hands out the numbers from 1 to `MAX_PID - 1` in a circle and leaves out the ones in use.
Between two calls it remembers a gap: no process has a number between `last_pid` and `next_safe`.  A
scan of the list closes the gap from above as it goes and moves `last_pid` up when it finds it
taken, which may happen at any place in the list.

* `scanList_spec` — what one scan does;
* `getPid_spec` — `get_pid` returns a number that is not in use, and leaves a gap behind it;
* `getPid_unique` — the same for every run.

That `get_pid` returns is due to a free number: `last_pid` moves towards it, once around at most,
and never past it.  There is one since there are fewer processes than numbers (`exists_free`), and
the `distance` to it, in the circle of the numbers, decreases whenever a scan starts again
(`distance_lt`); this is the bound for the loop in `rescan_spec`.

Between two calls processes may go at any time, and the gap stays one (`PidState.Inv.remove`).
-/

set_option autoImplicit false

namespace Ucore

/-! ## One scan -/

/-- What holds in the middle of a scan: none of the processes before has a number from `last_pid` up
to `next_safe`. -/
structure PidState.Scanned (s : PidState) (seen : List ℤ) : Prop where
  one_le : 1 ≤ s.lastPid
  lt : s.lastPid < s.nextSafe
  le_max : s.nextSafe ≤ maxPid
  gap : ∀ pid ∈ seen, ¬ (s.lastPid ≤ pid ∧ pid < s.nextSafe)

/-- The numbers from `a` to `b`, without `b`, are in use. -/
def Taken (pids : List ℤ) (a b : ℤ) : Prop := ∀ q, a ≤ q → q < b → q ∈ pids

/-- **What one scan does.**  Either it gets to the end of the list, or it starts again from a later
number.  All numbers that it has left out are in use. -/
theorem scanList_spec (pids : List ℤ) : ∀ (l seen : List ℤ) (s : PidState), pids = seen ++ l →
    s.Scanned seen →
    (∃ s', scanList l s = (false, s') ∧ s'.Scanned pids) ∨
    ∃ t, scanList l s = (true, ⟨if t ≥ maxPid then 1 else t, maxPid⟩) ∧ s.lastPid < t ∧ t ≤ maxPid ∧
      Taken pids s.lastPid t := by
  intro l
  induction l with
  | nil =>
    intro seen s hpids hs
    rw [List.append_nil] at hpids
    exact .inl ⟨s, rfl, hpids ▸ hs⟩
  | cons pid l ih =>
    intro seen s hpids hs
    obtain ⟨last, next⟩ := s
    obtain ⟨hone, hlt, hmax, hgap⟩ := hs
    simp only at hone hlt hmax hgap
    have hpids' : pids = (seen ++ [pid]) ++ l := by rw [hpids, List.append_assoc]; rfl
    have hmem : pid ∈ pids := by
      rw [hpids]
      exact List.mem_append_right seen (List.mem_cons_self ..)
    simp only [scanList]
    by_cases heq : pid = last
    · have htaken : Taken pids last (last + 1) := by
        intro q h1 h2
        have hq : q = pid := by omega
        rw [hq]
        exact hmem
      rw [if_pos heq]
      by_cases hfull : last + 1 ≥ next
      · -- the gap is used up
        refine .inr ⟨last + 1, ?_, by omega, by omega, htaken⟩
        rw [if_pos hfull]
        by_cases hwrap : last + 1 ≥ maxPid
        · rw [if_pos hwrap, if_pos hwrap]
        · rw [if_neg hwrap, if_neg hwrap]
      · rw [if_neg hfull]
        have hnext : (⟨last + 1, next⟩ : PidState).Scanned (seen ++ [pid]) := by
          refine ⟨by show 1 ≤ last + 1; omega, by show last + 1 < next; omega, hmax, ?_⟩
          intro q hq
          have hlast : ¬ (last ≤ q ∧ q < next) ∨ q = pid := by
            rcases List.mem_append.1 hq with hq | hq
            · exact .inl (hgap q hq)
            · exact .inr (List.mem_singleton.1 hq)
          show ¬ (last + 1 ≤ q ∧ q < next)
          omega
        rcases ih _ _ hpids' hnext with h | ⟨t, hrun, ht, hle, htk⟩
        · exact .inl h
        · simp only at ht htk
          refine .inr ⟨t, hrun, by show last < t; omega, hle, fun q h1 h2 => ?_⟩
          by_cases hq : q < last + 1
          · exact htaken q h1 hq
          · exact htk q (by omega) h2
    · rw [if_neg heq]
      -- whether the process closes the gap or not, the next round starts with the same `last_pid`
      have hstep : ∀ next', next' ≤ next → last < next' → ¬ (last ≤ pid ∧ pid < next') →
          (⟨last, next'⟩ : PidState).Scanned (seen ++ [pid]) := by
        intro next' hle hlt' hout
        refine ⟨hone, hlt', le_trans hle hmax, fun q hq => ?_⟩
        show ¬ (last ≤ q ∧ q < next')
        rcases List.mem_append.1 hq with hq | hq
        · have h := hgap q hq
          omega
        · rw [List.mem_singleton.1 hq]
          exact hout
      by_cases hclose : pid > last ∧ next > pid
      · rw [if_pos hclose]
        exact ih _ _ hpids' (hstep pid (by omega) (by omega) (by omega))
      · rw [if_neg hclose]
        exact ih _ _ hpids' (hstep next le_rfl hlt (by omega))

/-! ## Termination -/

/-- There is a free number if there are fewer processes than numbers. -/
theorem exists_free {pids : List ℤ} (h : (pids.length : ℤ) < maxPid - 1) :
    ∃ f, 1 ≤ f ∧ f < maxPid ∧ f ∉ pids := by
  have hcard : pids.toFinset.card < (Finset.Ico 1 maxPid).card := by
    have h1 := pids.toFinset_card_le
    rw [Int.card_Ico]
    simp only [maxPid] at h ⊢
    omega
  obtain ⟨f, hf, hfree⟩ := Finset.exists_mem_notMem_of_card_lt_card hcard
  rw [Finset.mem_Ico] at hf
  exact ⟨f, hf.1, hf.2, fun hm => hfree (List.mem_toFinset.2 hm)⟩

/-- The way from `a` to the free number `f`, in the circle of the numbers. -/
def distance (f a : ℤ) : ℤ := if a ≤ f then f - a else f - a + (maxPid - 1)

/-- A scan that starts again has come closer to the free number. -/
theorem distance_lt {pids : List ℤ} {f a t : ℤ} (hf : 1 ≤ f) (hmax : f < maxPid) (hfree : f ∉ pids)
    (ht : a < t) (hle : t ≤ maxPid) (htaken : Taken pids a t) :
    distance f (if t ≥ maxPid then 1 else t) < distance f a := by
  have hout : f < a ∨ t ≤ f := by
    by_contra hin
    exact hfree (htaken f (by omega) (by omega))
  simp only [distance]
  split_ifs <;> omega

/-- **The code behind `repeat` ends**, with a gap behind a number that is not in use. -/
theorem rescan_spec {pids : List ℤ} (h : (pids.length : ℤ) < maxPid - 1) {a : ℤ} (h1 : 1 ≤ a)
    (hmax : a < maxPid) : ∃ s', rescan pids ⟨a, maxPid⟩ = .ok s' ∧ s'.Scanned pids := by
  obtain ⟨f, hf, hfmax, hfree⟩ := exists_free h
  have hinit : (distance f a).toNat + 1 ≤ maxPid.toNat + 1 := by
    simp only [distance, maxPid] at *
    split_ifs <;> omega
  obtain ⟨⟨b, s'⟩, hrun, hs'⟩ := doWhile_spec (c := Prod.fst)
    (f := fun t : Bool × PidState => .ok (scanList pids t.2))
    (fun n t => ∃ a, t.2 = ⟨a, maxPid⟩ ∧ 1 ≤ a ∧ a < maxPid ∧ n = (distance f a).toNat + 1)
    (Q := fun t => t.2.Scanned pids) (s := (true, ⟨a, maxPid⟩)) ⟨a, rfl, h1, hmax, rfl⟩ hinit (by
      rintro n ⟨b, _⟩ ⟨a, rfl, h1, hmax, rfl⟩
      have hstart : (⟨a, maxPid⟩ : PidState).Scanned [] :=
        ⟨h1, hmax, le_rfl, fun q hq => absurd hq List.not_mem_nil⟩
      rcases scanList_spec pids pids [] _ rfl hstart
        with ⟨s', hscan, hs'⟩ | ⟨t, hscan, ht, hle, htaken⟩
      · exact ⟨_, 0, rfl, by omega, .inr ⟨by rw [hscan], by rw [hscan]; exact hs'⟩⟩
      · have hlt := distance_lt hf hfmax hfree ht hle htaken
        simp only at hlt ht
        have hpos : 0 ≤ distance f (if t ≥ maxPid then 1 else t) := by
          simp only [distance, maxPid] at *
          split_ifs <;> omega
        refine ⟨_, _, rfl, ?_, .inl ⟨by rw [hscan], _, by rw [hscan], ?_, ?_, rfl⟩⟩
        · omega
        · split_ifs <;> omega
        · simp only [maxPid] at *
          split_ifs <;> omega)
  refine ⟨s', ?_, hs'⟩
  rw [rescan, hrun]
  rfl

/-! ## `get_pid` -/

/-- **What `get_pid` keeps between two calls.** -/
structure PidState.Inv (s : PidState) (pids : List ℤ) : Prop where
  one_le : 1 ≤ s.lastPid
  gap : ∀ pid ∈ pids, ¬ (s.lastPid < pid ∧ pid < s.nextSafe)

theorem PidState.Inv.init : PidState.init.Inv [] :=
  ⟨by decide, fun pid hpid => absurd hpid List.not_mem_nil⟩

/-- Processes may go at any time. -/
theorem PidState.Inv.remove {s : PidState} {pids pids' : List ℤ} (h : s.Inv pids)
    (hsub : pids' ⊆ pids) : s.Inv pids' := ⟨h.one_le, fun pid hpid => h.gap pid (hsub hpid)⟩

/-- **`get_pid` returns a number that no process has**, and may be called again. -/
theorem getPid_spec {s : PidState} {pids : List ℤ} (h : s.Inv pids)
    (hlen : (pids.length : ℤ) < maxPid - 1) :
    ∃ pid s', getPid pids s = .ok (pid, s') ∧ 1 ≤ pid ∧ pid < maxPid ∧ pid ∉ pids ∧
      s'.Inv (pid :: pids) := by
  -- the three ways to the end have this in common
  have hend : ∀ s' : PidState, s'.Scanned pids → 1 ≤ s'.lastPid ∧ s'.lastPid < maxPid ∧
      s'.lastPid ∉ pids ∧ s'.Inv (s'.lastPid :: pids) := by
    intro s' hs'
    have hlt := hs'.lt
    have hmax := hs'.le_max
    refine ⟨hs'.one_le, by omega, fun hmem => hs'.gap _ hmem ⟨le_rfl, hlt⟩, hs'.one_le, ?_⟩
    intro pid hpid
    rcases List.mem_cons.1 hpid with rfl | hpid
    · omega
    · have hgap := hs'.gap pid hpid
      omega
  have hone := h.one_le
  simp only [getPid]
  by_cases hwrap : s.lastPid + 1 ≥ maxPid
  · obtain ⟨s', hrun, hs'⟩ := rescan_spec hlen le_rfl (show (1 : ℤ) < maxPid by decide)
    refine ⟨s'.lastPid, s', ?_, hend s' hs'⟩
    rw [if_pos hwrap, hrun]
    rfl
  · rw [if_neg hwrap]
    by_cases hfull : s.lastPid + 1 ≥ s.nextSafe
    · obtain ⟨s', hrun, hs'⟩ := rescan_spec hlen (show 1 ≤ s.lastPid + 1 by omega)
        (show s.lastPid + 1 < maxPid by omega)
      refine ⟨s'.lastPid, s', ?_, hend s' hs'⟩
      rw [if_pos hfull, hrun]
      rfl
    · -- the next number is in the gap that was found earlier
      rw [if_neg hfull]
      refine ⟨s.lastPid + 1, _, rfl, by omega, by omega, fun hmem => ?_, ?_, ?_⟩
      · exact h.gap _ hmem ⟨by omega, by omega⟩
      · show 1 ≤ s.lastPid + 1
        omega
      · intro pid hpid
        show ¬ (s.lastPid + 1 < pid ∧ pid < s.nextSafe)
        rcases List.mem_cons.1 hpid with rfl | hpid
        · omega
        · have hgap := h.gap pid hpid
          omega

/-! ## Runs -/

/-- The runs in which `get_pid` is called for each new process and processes go at any time, with
the numbers of the processes on the list. -/
inductive PidRun : List ℤ → PidState → Prop
  | init : PidRun [] PidState.init
  | get {pids : List ℤ} {s s' : PidState} {pid : ℤ} (run : PidRun pids s)
      (hlen : (pids.length : ℤ) < maxPid - 1) (hget : getPid pids s = .ok (pid, s')) :
      PidRun (pid :: pids) s'
  | remove {pids pids' : List ℤ} {s : PidState} (run : PidRun pids s) (hsub : pids'.Sublist pids) :
      PidRun pids' s

theorem PidRun.inv {pids : List ℤ} {s : PidState} (h : PidRun pids s) : s.Inv pids := by
  induction h with
  | init => exact PidState.Inv.init
  | get _ hlen hget ih =>
    obtain ⟨pid, s', hrun, -, -, -, hinv⟩ := getPid_spec ih hlen
    rw [hget] at hrun
    cases hrun
    exact hinv
  | remove _ hsub ih => exact ih.remove hsub.subset

/-- **No number is handed out twice.**  In every run `get_pid` returns, with a number that no
process on the list has, and between the calls no process has a number between `last_pid` and
`next_safe`. -/
theorem getPid_unique {pids : List ℤ} {s : PidState} (h : PidRun pids s) :
    ((pids.length : ℤ) < maxPid - 1 → ∃ pid s', getPid pids s = .ok (pid, s') ∧ 1 ≤ pid ∧
      pid < maxPid ∧ pid ∉ pids) ∧
    ∀ pid ∈ pids, ¬ (s.lastPid < pid ∧ pid < s.nextSafe) := by
  refine ⟨fun hlen => ?_, h.inv.gap⟩
  obtain ⟨pid, s', hrun, hone, hmax, hnew, -⟩ := getPid_spec h.inv hlen
  exact ⟨pid, s', hrun, hone, hmax, hnew⟩

/-- Two processes are created and the first one goes. -/
theorem getPid_unique_two : PidRun [2] ⟨2, maxPid⟩ ∧
    ∃ pid s', getPid [2] ⟨2, maxPid⟩ = .ok (pid, s') ∧ 1 ≤ pid ∧ pid < maxPid ∧ pid ∉ [2] := by
  have h₁ : PidRun [1] ⟨1, maxPid⟩ := PidRun.init.get (by decide) rfl
  have h₂ : PidRun [2, 1] ⟨2, maxPid⟩ := h₁.get (by decide) rfl
  have h₃ : PidRun [2] ⟨2, maxPid⟩ := h₂.remove (by decide)
  exact ⟨h₃, (getPid_unique h₃).1 (by decide)⟩

end Ucore
