import Ucore.Proc.Defs

/-!
# The scheduler

`schedule` goes around the list of processes, from the current one on, and takes the first one that
is runnable.  `schedule_spec` says which one this is, in terms of `pick`, and what else changes.
`schedule_roundRobin` is about calls in a row: as long as nothing else happens to the processes, `k`
runnable ones are selected in turn, each once in `k` calls.

The list is a circle in which the head is a place like the others, and the loop skips it
(`Ucore.Lib.Ring`).  If the idle process runs, which is not on the list, the way starts at the head.

* `Kern.Sound` is what `schedule` relies on, and `Scheduled` what it leaves alone.
* `Scanning` is the invariant of the loop: none of the processes that have been met is runnable, and
  `Found` is what it has found at the end (`scan_spec`).
* `schedule_spec` — the selection, and that the process is made to run.
* `schedules_spec` — `n` calls: the picks of each are those from the place of the last one on, so
  that the result follows from `picks_eq`.
-/

set_option autoImplicit false

namespace Ucore

/-- **What `schedule` relies on**: the list and the pointers refer to processes, and the idle
process is not on the list. -/
structure Kern.Sound (s : Kern) (idle : ℕ) : Prop where
  idleproc : s.idleproc = some idle
  live : ∀ p ∈ idle :: s.procList, p ∈ s.slab.live
  nodup : (idle :: s.procList).Nodup
  current : ∃ c, s.current = some c ∧ c ∈ idle :: s.procList

namespace Kern

/-- The process is runnable. -/
def runnable (s : Kern) (p : ℕ) : Bool := (s.proc p).state = .runnable

/-- The place in the list that `schedule` starts from. -/
def place (s : Kern) : Option ℕ := if s.current = s.idleproc then none else s.current

/-- The processes are the same, but for the fields that `schedule` and `proc_run` write. -/
structure Scheduled (s s' : Kern) : Prop where
  procList : s'.procList = s.procList
  hashList : s'.hashList = s.hashList
  nrProcess : s'.nrProcess = s.nrProcess
  pids : s'.pids = s.pids
  idleproc : s'.idleproc = s.idleproc
  slab : s'.slab = s.slab
  pages : s'.pages = s.pages
  state : ∀ p, (s'.proc p).state = (s.proc p).state
  pid : ∀ p, (s'.proc p).pid = (s.proc p).pid
  mm : ∀ p, (s'.proc p).mm = (s.proc p).mm

variable {s s' s'' : Kern} {idle : ℕ}

theorem Scheduled.refl (s : Kern) : Scheduled s s :=
  ⟨rfl, rfl, rfl, rfl, rfl, rfl, rfl, fun _ => rfl, fun _ => rfl, fun _ => rfl⟩

theorem Scheduled.trans (h : Scheduled s s') (h' : Scheduled s' s'') : Scheduled s s'' where
  procList := h'.procList.trans h.procList
  hashList := h'.hashList.trans h.hashList
  nrProcess := h'.nrProcess.trans h.nrProcess
  pids := h'.pids.trans h.pids
  idleproc := h'.idleproc.trans h.idleproc
  slab := h'.slab.trans h.slab
  pages := h'.pages.trans h.pages
  state p := (h'.state p).trans (h.state p)
  pid p := (h'.pid p).trans (h.pid p)
  mm p := (h'.mm p).trans (h.mm p)

/-- An assignment to other fields of a process. -/
theorem Scheduled.setProc (s : Kern) {p : ℕ} {v : Proc} (h : v.state = (s.proc p).state)
    (hpid : v.pid = (s.proc p).pid) (hmm : v.mm = (s.proc p).mm) : Scheduled s (s.setProc p v) := by
  have hupd : ∀ {β : Type} (f : Proc → β), f v = f (s.proc p) →
      ∀ q, f (Function.update s.proc p v q) = f (s.proc q) := by
    intro β f hf q
    by_cases hq : q = p
    · rw [hq, Function.update_self, hf]
    · rw [Function.update_of_ne hq]
  exact ⟨rfl, rfl, rfl, rfl, rfl, rfl, rfl, hupd Proc.state h, hupd Proc.pid hpid, hupd Proc.mm hmm⟩

theorem Scheduled.runnable (h : Scheduled s s') : s'.runnable = s.runnable := by
  funext p
  rw [Kern.runnable, Kern.runnable, h.state]

namespace Sound

theorem getProc (H : s.Sound idle) {p : ℕ} (hp : p ∈ idle :: s.procList) :
    s.getProc (some p) = .ok (p, s.proc p) := if_pos (H.live p hp)

theorem place_spec (H : s.Sound idle) : Place s.procList s.place := by
  intro x hx
  obtain ⟨c, hc, hmem⟩ := H.current
  rw [Kern.place] at hx
  by_cases h : s.current = s.idleproc
  · rw [if_pos h] at hx
    cases hx
  · rw [if_neg h, hc] at hx
    cases hx
    refine (List.mem_cons.1 hmem).resolve_left ?_
    rintro rfl
    exact h (hc.trans H.idleproc.symm)

theorem of_scheduled (H : s.Sound idle) (h : Scheduled s s')
    (hc : ∃ c, s'.current = some c ∧ c ∈ idle :: s.procList) : s'.Sound idle := by
  refine ⟨h.idleproc.trans H.idleproc, ?_, ?_, ?_⟩
  · rw [h.procList, h.slab]
    exact H.live
  · rw [h.procList]
    exact H.nodup
  · rw [h.procList]
    exact hc

end Sound

/-! ## The loop -/

/-- What holds before a round of the loop with `v` places to come: none of the processes that have
been met is runnable. -/
structure Scanning (s : Kern) (tour : List (Option ℕ)) (t : Scan)
    (u v : List (Option ℕ)) : Prop where
  tour : tour = u ++ v
  found : t.found = false
  place : Place s.procList t.le
  rest : ringAfter (places s.procList) (some t.le) = v ++ u
  more : v ≠ []
  seen : ∀ p, some p ∈ u → s.runnable p = false
  next : ∀ p, t.next = some p → s.runnable p = false

/-- What the loop has found, from the place `c` on. -/
structure Found (s : Kern) (c : Option ℕ) (t : Scan) : Prop where
  first : ∀ x, pick s.runnable s.procList c = some x → t.next = some x
  nobody : pick s.runnable s.procList c = none → ∀ x, t.next = some x → s.runnable x = false

/-- The first runnable process on the way is picked. -/
theorem pick_of_tour {c : Option ℕ} {u v : List (Option ℕ)} {p : ℕ}
    (hred : (u ++ some p :: v).reduceOption = ringAfter s.procList c)
    (hu : ∀ q, some q ∈ u → s.runnable q = false) (hp : s.runnable p = true) :
    pick s.runnable s.procList c = some p := by
  rw [pick, ← hred, List.reduceOption_append, List.reduceOption_cons_of_some, List.find?_append,
    List.find?_eq_none.2, Option.none_or, List.find?_cons_of_pos hp]
  intro q hq
  rw [hu q (List.reduceOption_mem_iff.1 hq)]
  exact Bool.false_ne_true

/-- Nobody is picked if nobody is runnable. -/
theorem pick_eq_none_of_tour {c : Option ℕ} {u : List (Option ℕ)}
    (hred : u.reduceOption = ringAfter s.procList c)
    (hu : ∀ q, some q ∈ u → s.runnable q = false) : pick s.runnable s.procList c = none := by
  rw [pick, ← hred, List.find?_eq_none]
  intro q hq
  rw [hu q (List.reduceOption_mem_iff.1 hq)]
  exact Bool.false_ne_true

theorem scanProc_none {t : Scan} (h : listNext s.procList t.le = none) :
    scanProc s t = .ok { t with le := none } := by rw [scanProc, h]

theorem scanProc_some {t : Scan} {p : ℕ} (h : listNext s.procList t.le = some p) :
    scanProc s t = .ok ⟨some p, some p, s.runnable p⟩ := by rw [scanProc, h]; rfl

/-- **The loop of `schedule`** ends, and `next` is the runnable process that is met first, or some
process that is not runnable. -/
theorem scan_spec (s : Kern) {c : Option ℕ} (hnd : s.procList.Nodup) (hc : Place s.procList c) :
    ∃ t, doWhile (fun t : Scan => !t.found && t.le ≠ c) (scanProc s) (s.procList.length + 1)
        ⟨c, none, false⟩ = .ok t ∧ Found s c t := by
  obtain ⟨a, b, htour, hlen, hred, -⟩ := tour_eq hnd hc
  have hplaces : Place (places s.procList) (some c) := by
    rintro x ⟨⟩
    exact mem_places hc
  have hperm := ringAfter_perm (nodup_places hnd) hplaces
  have hndT : (b ++ a ++ [c]).Nodup := by
    rw [← htour]
    exact hperm.nodup_iff.2 (nodup_places hnd)
  refine doWhile_spec (fun n t => ∃ u v, Scanning s (b ++ a ++ [c]) t u v ∧ n = v.length)
    ⟨[], b ++ a ++ [c], ⟨rfl, rfl, hc, by rw [htour, List.append_nil], by simp,
      fun p hp => absurd hp List.not_mem_nil, fun p hp => by cases hp⟩, rfl⟩ ?_ ?_
  · simp only [List.length_append, List.length_singleton]
    omega
  · rintro n t ⟨u, v, ⟨huv, hfound, hplace, hrest, hv, hu, hnext⟩, rfl⟩
    obtain ⟨x, v, rfl⟩ := List.exists_cons_of_ne_nil hv
    -- `list_next` is the first place to come
    have hx : listNext s.procList t.le = x := by
      obtain ⟨a', b', htour', -, -, hnext'⟩ := tour_eq hnd hplace
      rw [hnext', ← htour', hrest]
      rfl
    have hturn : ringAfter (places s.procList) (some x) = v ++ u ++ [x] :=
      ringAfter_turn (nodup_places hnd) hplaces (htour.trans huv)
    have hlast : x = c ↔ v = [] := by
      constructor
      · rintro rfl
        exact (split_at_unique (huv ▸ hndT)
          (show u ++ x :: v = (b ++ a) ++ x :: [] from huv.symm)).2
      · rintro rfl
        have h := congrArg List.getLast? huv
        simpa using h.symm
    have hxp : Place s.procList x := by
      rintro y rfl
      have hmem : some y ∈ ringAfter (places s.procList) (some c) := by
        rw [htour, huv]
        exact List.mem_append_right u (List.mem_cons_self ..)
      simpa [places] using hperm.subset hmem
    have hsplit : b ++ a ++ [c] = (u ++ [x]) ++ v := by rw [huv, List.append_assoc]; rfl
    -- the round does not end at a runnable process
    have hgo : ∀ y, scanProc s t = .ok ⟨x, y, false⟩ → (∀ p, x = some p → s.runnable p = false) →
        (∀ p, y = some p → s.runnable p = false) → ∃ t' m, scanProc s t = .ok t' ∧
          m < (x :: v).length ∧ ((!t'.found && t'.le ≠ c) = true ∧
              (∃ u v, Scanning s (b ++ a ++ [c]) t' u v ∧ m = v.length) ∨
            (!t'.found && t'.le ≠ c) = false ∧ Found s c t') := by
      intro y hrun hxr hy
      have hseen : ∀ p, some p ∈ u ++ [x] → s.runnable p = false := by
        intro p hp
        rcases List.mem_append.1 hp with hp | hp
        · exact hu p hp
        · exact hxr p (List.mem_singleton.1 hp).symm
      refine ⟨⟨x, y, false⟩, v.length, hrun, by simp, ?_⟩
      by_cases hv : v = []
      · rw [hv, List.append_nil] at hsplit
        have hnone := pick_eq_none_of_tour (hsplit ▸ hred) hseen
        refine .inr ⟨by simp [hlast.2 hv], fun z hz => ?_, fun _ => hy⟩
        rw [hnone] at hz
        cases hz
      · refine .inl ⟨by simpa using fun h => hv (hlast.1 h), u ++ [x], v, ⟨hsplit, rfl, hxp, ?_, hv,
          hseen, hy⟩, rfl⟩
        rw [hturn, List.append_assoc]
    cases x with
    | none =>
      refine hgo t.next ?_ (fun p hp => by cases hp) hnext
      rw [scanProc_none hx, ← hfound]
    | some p =>
      by_cases hp : s.runnable p = true
      · -- `break`
        have hpick := pick_of_tour (huv ▸ hred) hu hp
        refine ⟨⟨some p, some p, true⟩, 0, ?_, by simp, .inr ⟨rfl, ?_, ?_⟩⟩
        · rw [scanProc_some hx, hp]
        · intro z hz
          rw [← hz, hpick]
        · intro hnone
          rw [hpick] at hnone
          cases hnone
      · rw [Bool.not_eq_true] at hp
        have hself : ∀ q, some p = some q → s.runnable q = false := by
          rintro q ⟨⟩
          exact hp
        refine hgo (some p) ?_ hself hself
        rw [scanProc_some hx, hp]

/-! ## `schedule` -/

/-- The process that `schedule` selects. -/
def selection (s : Kern) (idle : ℕ) : ℕ := (pick s.runnable s.procList s.place).getD idle

theorem procRun_spec (H : s.Sound idle) {n : ℕ} (hn : n ∈ idle :: s.procList) :
    ∃ s', procRun n s = .ok s' ∧ s'.current = some n ∧ Scheduled s s' := by
  by_cases h : some n = s.current
  · refine ⟨s, ?_, h.symm, Scheduled.refl s⟩
    rw [procRun, if_neg (not_not.2 h)]
    rfl
  · obtain ⟨c, hc, hmem⟩ := H.current
    set s₁ : Kern := { s with
      current := some n
      esp0 := (s.proc n).kstack + kstackSize
      cr3 := (s.proc n).pgdirAddr } with hs₁
    set s₂ := s₁.setProc c { s₁.proc c with context := s₁.cpu } with hs₂
    have h₁ : Scheduled s s₁ := ⟨rfl, rfl, rfl, rfl, rfl, rfl, rfl, fun _ => rfl, fun _ => rfl,
      fun _ => rfl⟩
    have h₂ : Scheduled s₁ s₂ := Scheduled.setProc s₁ rfl rfl rfl
    refine ⟨{ s₂ with cpu := (s₂.proc n).context }, ?_, rfl, ?_⟩
    · rw [procRun, if_pos h, hc, H.getProc hmem, Res.ok_bind, H.getProc hn]
      rfl
    · have h₃ := h₁.trans h₂
      exact ⟨h₃.procList, h₃.hashList, h₃.nrProcess, h₃.pids, h₃.idleproc, h₃.slab, h₃.pages,
        h₃.state, h₃.pid, h₃.mm⟩

theorem mem_of_pick {c : Option ℕ} {x : ℕ} (hnd : s.procList.Nodup) (hc : Place s.procList c)
    (h : pick s.runnable s.procList c = some x) : x ∈ s.procList :=
  (ringAfter_perm hnd hc).subset (List.mem_of_find?_eq_some h)

theorem Sound.selection_mem (H : s.Sound idle) : s.selection idle ∈ idle :: s.procList := by
  rw [selection]
  cases h : pick s.runnable s.procList s.place with
  | none => exact List.mem_cons_self ..
  | some x =>
    exact List.mem_cons_of_mem idle (mem_of_pick (List.nodup_cons.1 H.nodup).2 H.place_spec h)

/-- **`schedule` selects the process that is met first**, or the idle process. -/
theorem schedule_spec (H : s.Sound idle) : ∃ s', schedule s = .ok s' ∧
    s'.current = some (s.selection idle) ∧ Scheduled s s' ∧ s'.Sound idle := by
  obtain ⟨c, hc, hmem⟩ := H.current
  set s₁ := s.setProc c { s.proc c with needResched := false } with hs₁
  have h₁ : Scheduled s s₁ := Scheduled.setProc s rfl rfl rfl
  have H₁ : s₁.Sound idle := H.of_scheduled h₁ ⟨c, hc, hmem⟩
  have hplace : (if s₁.current = s₁.idleproc then none else some c) = s.place := by
    rw [place, hc]
    exact if_congr (by rw [← hc]; rfl) rfl rfl
  obtain ⟨t, hloop, hfound⟩ := scan_spec s₁ (List.nodup_cons.1 H₁.nodup).2 H.place_spec
  have hpick : pick s₁.runnable s₁.procList s.place = pick s.runnable s.procList s.place := by
    rw [h₁.runnable, h₁.procList]
  have hnext : (if t.next.all fun p => (s₁.proc p).state ≠ .runnable then s₁.idleproc else t.next) =
      some (s.selection idle) := by
    rw [selection, ← hpick]
    cases h : pick s₁.runnable s₁.procList s.place with
    | none =>
      rw [if_pos, Option.getD_none, H₁.idleproc]
      rw [Option.all_eq_true]
      intro x hx
      have hx' := hfound.nobody h x hx
      simpa [runnable] using hx'
    | some x =>
      have hx : s₁.runnable x = true := List.find?_some h
      rw [hfound.first x h, if_neg, Option.getD_some]
      simpa [runnable] using hx
  set n := s.selection idle with hn
  have hmemn : n ∈ idle :: s₁.procList := H.selection_mem
  set s₂ := s₁.setProc n { s₁.proc n with runs := (s₁.proc n).runs + 1 } with hs₂
  have h₂ : Scheduled s₁ s₂ := Scheduled.setProc s₁ rfl rfl rfl
  have H₂ : s₂.Sound idle := H₁.of_scheduled h₂ ⟨c, hc, hmem⟩
  obtain ⟨s₃, hrun, hcur, h₃⟩ : ∃ s₃, (if some n ≠ s₂.current then procRun n s₂ else pure s₂) =
      .ok s₃ ∧ s₃.current = some n ∧ Scheduled s₂ s₃ := by
    by_cases h : some n = s₂.current
    · rw [if_neg (not_not.2 h)]
      exact ⟨s₂, rfl, h.symm, Scheduled.refl s₂⟩
    · rw [if_pos h]
      exact procRun_spec H₂ hmemn
  have hall := (h₁.trans h₂).trans h₃
  refine ⟨s₃, ?_, hcur, hall, H.of_scheduled hall ⟨n, hcur, H.selection_mem⟩⟩
  rw [schedule, hc, H.getProc hmem, Res.ok_bind]
  simp only [← hs₁]
  rw [hplace, hloop, Res.ok_bind]
  simp only [hnext]
  rw [H₁.getProc hmemn, Res.ok_bind]
  exact hrun

/-! ## Calls in a row -/

/-- `n` calls of `schedule`, with the processes that they select. -/
def schedules : ℕ → Kern → Res (List (Option ℕ) × Kern)
  | 0, s => .ok ([], s)
  | n + 1, s => do
    let s ← schedule s
    let (l, s') ← schedules n s
    return (s.current :: l, s')

/-- Somebody is picked if somebody is runnable. -/
theorem Sound.pick_eq_none (H : s.Sound idle) :
    pick s.runnable s.procList s.place = none ↔ ∀ p ∈ s.procList, s.runnable p = false := by
  have hperm := ringAfter_perm (List.nodup_cons.1 H.nodup).2 H.place_spec
  rw [pick, List.find?_eq_none]
  constructor
  · intro h p hp
    have hp' := h p (hperm.mem_iff.2 hp)
    simpa using hp'
  · intro h p hp
    rw [h p (hperm.mem_iff.1 hp)]
    exact Bool.false_ne_true

/-- A process that has been picked is not the idle process. -/
theorem Sound.place_of_pick (H : s.Sound idle) (h : Scheduled s s') {x : ℕ}
    (hx : pick s.runnable s.procList s.place = some x) (hcur : s'.current = some x) :
    s'.place = some x := by
  obtain ⟨hidle, hnd⟩ := List.nodup_cons.1 H.nodup
  rw [place, hcur, if_neg]
  rw [h.idleproc, H.idleproc, Option.some.injEq]
  rintro rfl
  exact hidle (mem_of_pick hnd H.place_spec hx)

/-- What is selected in `n` calls is picked from the list. -/
theorem schedules_spec (n : ℕ) : ∀ {s : Kern}, s.Sound idle →
    (∃ p ∈ s.procList, s.runnable p = true) →
    ∃ s', schedules n s = .ok (picks s.runnable s.procList n s.place, s') ∧ Scheduled s s' ∧
      s'.Sound idle := by
  induction n with
  | zero =>
    intro s H _
    exact ⟨s, rfl, Scheduled.refl s, H⟩
  | succ n ih =>
    intro s H hsome
    obtain ⟨s₁, hrun, hcur, h₁, H₁⟩ := schedule_spec H
    obtain ⟨s₂, hruns, h₂, H₂⟩ := ih H₁ (by rw [h₁.procList, h₁.runnable]; exact hsome)
    -- somebody is picked, and this is not the idle process
    obtain ⟨x, hx⟩ := Option.ne_none_iff_exists'.1 fun h => by
      obtain ⟨p, hp, hrunnable⟩ := hsome
      rw [H.pick_eq_none.1 h p hp] at hrunnable
      cases hrunnable
    have hsel : s.selection idle = x := by rw [selection, hx, Option.getD_some]
    have hplace : s₁.place = some x := H.place_of_pick h₁ hx (by rw [hcur, hsel])
    refine ⟨s₂, ?_, h₁.trans h₂, H₂⟩
    rw [h₁.runnable, h₁.procList, hplace] at hruns
    rw [schedules, hrun, Res.ok_bind, hruns, Res.ok_bind, hcur, hsel, picks, hx]
    rfl

/-- **`schedule` is round robin.**  It selects the first runnable process that is met from the
current one on, and the idle process if and only if there is none.  In as many calls in a row as
there are runnable processes each of them is selected once. -/
theorem schedule_roundRobin (H : s.Sound idle) :
    (∃ s', schedule s = .ok s' ∧
      s'.current = some (((ringAfter s.procList s.place).find? s.runnable).getD idle) ∧
      (s'.current = some idle ↔ ∀ p ∈ s.procList, s.runnable p = false) ∧
      Scheduled s s' ∧ s'.Sound idle) ∧
    ∀ m, (∃ p ∈ s.procList, s.runnable p = true) →
    ∃ before sel s₁ s₂, schedules m s = .ok (before, s₁) ∧
      schedules (s.procList.countP s.runnable) s₁ = .ok (sel, s₂) ∧
      sel.Perm ((s.procList.filter s.runnable).map some) := by
  have hnd := (List.nodup_cons.1 H.nodup).2
  refine ⟨?_, ?_⟩
  · obtain ⟨s', hrun, hcur, hs', H'⟩ := schedule_spec H
    refine ⟨s', hrun, hcur, ?_, hs', H'⟩
    rw [hcur, Option.some.injEq, ← H.pick_eq_none, selection]
    constructor
    · intro hidle
      cases h : pick s.runnable s.procList s.place with
      | none => rfl
      | some x =>
        rw [h, Option.getD_some] at hidle
        rw [hidle] at h
        exact absurd (mem_of_pick hnd H.place_spec h) (List.nodup_cons.1 H.nodup).1
    · intro hnone
      rw [hnone, Option.getD_none]
  · intro m hsome
    obtain ⟨s₁, hruns₁, h₁, H₁⟩ := schedules_spec m H hsome
    obtain ⟨s₂, hruns₂, h₂, H₂⟩ := schedules_spec (s.procList.countP s.runnable) H₁
      (by rw [h₁.procList, h₁.runnable]; exact hsome)
    refine ⟨_, _, s₁, s₂, hruns₁, hruns₂, ?_⟩
    have hplace := H₁.place_spec
    rw [h₁.procList] at hplace
    rw [h₁.procList, h₁.runnable]
    have hperm := (ringAfter_perm hnd hplace).filter s.runnable
    have hcount : s.procList.countP s.runnable =
        ((ringAfter s.procList s₁.place).filter s.runnable).length := by
      rw [hperm.length_eq, List.countP_eq_length_filter]
    rw [hcount, picks_eq hnd _ hplace (List.append_nil _).symm]
    exact hperm.map some

/-- The idle process 1 and three processes, of which 3 is asleep and runs at the moment. -/
def three : Kern where
  sym := ⟨0, 0, 0, 0, 0, 0⟩
  proc p := ⟨if p = 3 then .sleeping else .runnable, p, 0, 0, false, none, none, {}, none, 0, 0⟩
  tfs _ := {}
  procList := [2, 3, 4]
  hashList _ := []
  nrProcess := 4
  pids := ⟨4, maxPid⟩
  idleproc := some 1
  initproc := some 2
  current := some 3
  slab := ⟨{1, 2, 3, 4}, []⟩
  pages := ⟨∅, []⟩
  cpu := {}
  esp0 := 0
  cr3 := 0

theorem schedule_roundRobin_three : three.Sound 1 ∧
    (∃ s', schedule three = .ok s' ∧ s'.current = some 4) ∧
    ∃ sel s₁ s₂, schedules 5 three = .ok s₁ ∧ schedules 2 s₁.2 = .ok (sel, s₂) ∧
      sel.Perm [some 2, some 4] := by
  have H : three.Sound 1 := ⟨rfl, by decide, by decide, 3, rfl, by decide⟩
  obtain ⟨⟨s', hrun, hcur, -⟩, hrobin⟩ := schedule_roundRobin H
  obtain ⟨before, sel, s₁, s₂, hruns₁, hruns₂, hperm⟩ := hrobin 5 ⟨2, by decide, rfl⟩
  exact ⟨H, ⟨s', hrun, hcur⟩, sel, (before, s₁), s₂, hruns₁, hruns₂, hperm⟩

end Kern

end Ucore
