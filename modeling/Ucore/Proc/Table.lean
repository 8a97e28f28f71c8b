import Ucore.Proc.Pid
import Ucore.Proc.Sched

/-!
# The process table

The processes are kept in a list, in a hash table and in a counter.  `Kern.Inv` says that the three
agree and that the numbers of the processes are distinct.

* `doFork_spec` — `do_fork` either adds one runnable process, to all three, or leaves no trace;
* `procInit_spec` — `proc_init` makes the first two processes;
* `Kern.process_table` — what holds after `proc_init` and any number of forks.

`do_fork` asks for a `proc_struct`, for a stack and for a number, in this order, and gives back what
it has got when one of them is not to be had.  `allocProc_spec` and `setupKstack_spec` are about the
first two, with the memory in use, and `getPid_spec` about the third, which cannot fail here as
there are more numbers than processes.  `linkProc_spec` is the step at which the process becomes
known, and the only one that changes the table.  The results are `Untouched` and `Forked`.

A bucket of the hash table is the list of all processes with this hash, in the same order, so
`find_proc` finds exactly the processes of the list (`Inv.findProc_iff`), and only the buckets of
the table are ever used (`Inv.hashList_eq_nil`).

`schedule` may be called between two forks, and changes nothing that the invariant speaks about.
-/

set_option autoImplicit false

namespace Ucore

namespace Kern

/-- The numbers of the processes on the list. -/
def pidList (s : Kern) : List ℤ := s.procList.map fun p => (s.proc p).pid

/-- **The process table is consistent.** -/
structure Inv (s : Kern) (idle : ℕ) : Prop where
  sound : s.Sound idle
  idle_pid : (s.proc idle).pid = 0
  pid_range : ∀ p ∈ s.procList, 1 ≤ (s.proc p).pid ∧ (s.proc p).pid < maxPid
  pid_nodup : s.pidList.Nodup
  hash : ∀ b, s.hashList b = s.procList.filter fun p => pidHashfn (s.proc p).pid = b
  count : s.nrProcess = s.procList.length + 1
  le_max : s.nrProcess ≤ maxProcess
  pids : s.pids.Inv s.pidList
  mm : ∀ p ∈ idle :: s.procList, (s.proc p).mm = none

/-- Two processes of the list with the same number are the same. -/
theorem Inv.pid_inj {s : Kern} {idle p q : ℕ} (H : s.Inv idle) (hp : p ∈ s.procList)
    (hq : q ∈ s.procList) (h : (s.proc p).pid = (s.proc q).pid) : p = q :=
  List.inj_on_of_nodup_map H.pid_nodup hp hq h

/-- **`find_proc` finds exactly the processes of the list.** -/
theorem Inv.findProc_iff {s : Kern} {idle : ℕ} (H : s.Inv idle) (pid : ℤ) (p : ℕ) :
    findProc pid s = some p ↔ p ∈ s.procList ∧ (s.proc p).pid = pid := by
  constructor
  · intro h
    rw [findProc] at h
    by_cases hpid : 0 < pid ∧ pid < maxPid
    · rw [if_pos hpid, H.hash] at h
      refine ⟨(List.mem_filter.1 (List.mem_of_find?_eq_some h)).1, ?_⟩
      simpa using List.find?_some h
    · rw [if_neg hpid] at h
      cases h
  · rintro ⟨hp, rfl⟩
    have hrange := H.pid_range p hp
    rw [findProc, if_pos ⟨by omega, hrange.2⟩, H.hash]
    -- the bucket has `p`, and nobody else with its number
    have hmem : p ∈ s.procList.filter fun q =>
        pidHashfn (s.proc q).pid = pidHashfn (s.proc p).pid :=
      List.mem_filter.2 ⟨hp, by simp⟩
    cases hfind : (s.procList.filter fun q => pidHashfn (s.proc q).pid =
        pidHashfn (s.proc p).pid).find? fun q => (s.proc q).pid = (s.proc p).pid with
    | none =>
      have h := List.find?_eq_none.1 hfind p hmem
      simp at h
    | some q =>
      have hq := (List.mem_filter.1 (List.mem_of_find?_eq_some hfind)).1
      have heq : (s.proc q).pid = (s.proc p).pid := by simpa using List.find?_some hfind
      rw [H.pid_inj hq hp heq]

/-- No list but those of the table is ever used. -/
theorem Inv.hashList_eq_nil {s : Kern} {idle : ℕ} (H : s.Inv idle) {b : UInt32}
    (hb : hashListSize ≤ b.toNat) : s.hashList b = [] := by
  rw [H.hash, List.filter_eq_nil_iff]
  intro p _ hp
  have hlt := pidHashfn_lt (s.proc p).pid
  rw [of_decide_eq_true hp] at hlt
  omega

/-! ## `do_fork` -/

variable {s s' : Kern} {idle : ℕ}

/-- The processes, the lists and the counters are the same, and no memory has been lost or
gained. -/
structure Untouched (s s' : Kern) : Prop where
  procList : s'.procList = s.procList
  hashList : s'.hashList = s.hashList
  nrProcess : s'.nrProcess = s.nrProcess
  pids : s'.pids = s.pids
  idleproc : s'.idleproc = s.idleproc
  current : s'.current = s.current
  slab : s'.slab.live = s.slab.live
  pages : s'.pages.live = s.pages.live
  proc : ∀ p ∈ s.slab.live, s'.proc p = s.proc p

/-- The runnable process `p` with the number `pid` is new, and the others are the same. -/
structure Forked (s s' : Kern) (pid : ℤ) (p : ℕ) : Prop where
  fresh : p ∉ s.slab.live
  slab : s'.slab.live = insert p s.slab.live
  pages : ∃ page, Disjoint (Pages.range page kstackPage) s.pages.live ∧
    s'.pages.live = s.pages.live ∪ Pages.range page kstackPage
  one_le : 1 ≤ pid
  lt_max : pid < maxPid
  unused : pid ∉ s.pidList
  pids : s'.pids.Inv (pid :: s.pidList)
  procList : s'.procList = p :: s.procList
  hashList : s'.hashList = Function.update s.hashList (pidHashfn pid)
    (p :: s.hashList (pidHashfn pid))
  nrProcess : s'.nrProcess = s.nrProcess + 1
  room : s.nrProcess < maxProcess
  idleproc : s'.idleproc = s.idleproc
  current : s'.current = s.current
  pid : (s'.proc p).pid = pid
  state : (s'.proc p).state = .runnable
  parent : (s'.proc p).parent = s.current
  mm : (s'.proc p).mm = none
  proc : ∀ q ∈ s.slab.live, s'.proc q = s.proc q

theorem Untouched.inv (h : Untouched s s') (H : s.Inv idle) : s'.Inv idle := by
  have hproc : ∀ p ∈ idle :: s.procList, s'.proc p = s.proc p := fun p hp =>
    h.proc p (H.sound.live p hp)
  have htail : ∀ p ∈ s.procList, s'.proc p = s.proc p := fun p hp =>
    hproc p (List.mem_cons_of_mem idle hp)
  have hpids : s'.pidList = s.pidList := by
    rw [pidList, pidList, h.procList]
    exact List.map_congr_left fun p hp => by rw [htail p hp]
  refine ⟨⟨h.idleproc.trans H.sound.idleproc, ?_, ?_, ?_⟩, ?_, ?_, ?_, ?_, ?_, ?_, ?_, ?_⟩
  · rw [h.procList, h.slab]
    exact H.sound.live
  · rw [h.procList]
    exact H.sound.nodup
  · rw [h.procList, h.current]
    exact H.sound.current
  · rw [hproc idle (List.mem_cons_self ..)]
    exact H.idle_pid
  · rw [h.procList]
    intro p hp
    rw [htail p hp]
    exact H.pid_range p hp
  · rw [hpids]
    exact H.pid_nodup
  · intro b
    rw [h.hashList, h.procList, H.hash b]
    exact List.filter_congr fun p hp => by rw [htail p hp]
  · rw [h.nrProcess, h.procList]
    exact H.count
  · rw [h.nrProcess]
    exact H.le_max
  · rw [h.pids, hpids]
    exact H.pids
  · rw [h.procList]
    intro p hp
    rw [hproc p hp]
    exact H.mm p hp

theorem Forked.inv {pid : ℤ} {p : ℕ} (h : Forked s s' pid p) (H : s.Inv idle) : s'.Inv idle := by
  have hproc : ∀ q ∈ idle :: s.procList, s'.proc q = s.proc q := fun q hq =>
    h.proc q (H.sound.live q hq)
  have htail : ∀ q ∈ s.procList, s'.proc q = s.proc q := fun q hq =>
    hproc q (List.mem_cons_of_mem idle hq)
  have hnew : p ∉ idle :: s.procList := fun hp => h.fresh (H.sound.live p hp)
  have hpids : s'.pidList = pid :: s.pidList := by
    rw [pidList, h.procList, List.map_cons, h.pid, pidList]
    exact congrArg _ (List.map_congr_left fun q hq => by rw [htail q hq])
  have hmem : ∀ {P : ℕ → Prop}, P p → (∀ q ∈ idle :: s.procList, P q) →
      ∀ q ∈ idle :: s'.procList, P q := by
    intro P hp hold q hq
    rw [h.procList, List.mem_cons, List.mem_cons] at hq
    rcases hq with rfl | rfl | hq
    · exact hold q (List.mem_cons_self ..)
    · exact hp
    · exact hold q (List.mem_cons_of_mem idle hq)
  refine ⟨⟨h.idleproc.trans H.sound.idleproc, ?_, ?_, ?_⟩, ?_, ?_, ?_, ?_, ?_, ?_, ?_, ?_⟩
  · rw [h.slab]
    exact hmem (Finset.mem_insert_self ..) fun q hq => Finset.mem_insert_of_mem (H.sound.live q hq)
  · rw [List.mem_cons, not_or] at hnew
    obtain ⟨h1, h2⟩ := List.nodup_cons.1 H.sound.nodup
    rw [h.procList, List.nodup_cons, List.nodup_cons, List.mem_cons, not_or]
    exact ⟨⟨fun h => hnew.1 h.symm, h1⟩, hnew.2, h2⟩
  · obtain ⟨c, hc, hcm⟩ := H.sound.current
    refine ⟨c, h.current.trans hc, ?_⟩
    rw [h.procList]
    exact (List.mem_cons.1 hcm).elim (fun hc => hc ▸ List.mem_cons_self ..) fun hc =>
      List.mem_cons_of_mem idle (List.mem_cons_of_mem p hc)
  · rw [hproc idle (List.mem_cons_self ..)]
    exact H.idle_pid
  · rw [h.procList]
    intro q hq
    rcases List.mem_cons.1 hq with rfl | hq
    · rw [h.pid]
      exact ⟨h.one_le, h.lt_max⟩
    · rw [htail q hq]
      exact H.pid_range q hq
  · rw [hpids, List.nodup_cons]
    exact ⟨h.unused, H.pid_nodup⟩
  · intro b
    have hrest : (s.procList.filter fun q => pidHashfn (s'.proc q).pid = b) = s.hashList b := by
      rw [H.hash b]
      exact List.filter_congr fun q hq => by rw [htail q hq]
    rw [h.hashList, h.procList, List.filter_cons, hrest, h.pid]
    by_cases hb : b = pidHashfn pid
    · rw [hb, Function.update_self, if_pos (by simp)]
    · rw [Function.update_of_ne hb, if_neg (by simpa using fun h => hb h.symm)]
  · rw [h.nrProcess, h.procList, H.count]
    rfl
  · have hroom := h.room
    rw [h.nrProcess]
    omega
  · rw [hpids]
    exact h.pids
  · exact hmem h.mm fun q hq => by rw [hproc q hq]; exact H.mm q hq

@[simp] theorem setProc_proc_self (s : Kern) (p : ℕ) (v : Proc) : (s.setProc p v).proc p = v :=
  Function.update_self ..

theorem setProc_proc_of_ne (s : Kern) {p q : ℕ} (v : Proc) (h : q ≠ p) :
    (s.setProc p v).proc q = s.proc q := Function.update_of_ne h ..

/-- What `alloc_proc` does. -/
theorem allocProc_spec (s : Kern) :
    (∃ slab, allocProc s = (none, { s with slab := slab }) ∧ slab.live = s.slab.live) ∨
    ∃ p slab v, p ∉ s.slab.live ∧ slab.live = insert p s.slab.live ∧
      allocProc s = (some p, { s with slab := slab }.setProc p v) ∧ v.state = .uninit ∧
        v.mm = none := by
  rw [allocProc]
  rcases s.slab.take_cases with ⟨script, h⟩ | ⟨p, script, hp, h⟩
  · rw [h]
    exact .inl ⟨_, rfl, rfl⟩
  · rw [h]
    exact .inr ⟨p, _, _, hp, rfl, rfl, rfl, rfl⟩

/-- What `setup_kstack` does. -/
theorem setupKstack_spec (s : Kern) (p : ℕ) :
    (∃ pages, setupKstack p s = (-eNoMem, { s with pages := pages }) ∧ pages.live = s.pages.live) ∨
    ∃ page pages, Disjoint (Pages.range page kstackPage) s.pages.live ∧
      pages.live = s.pages.live ∪ Pages.range page kstackPage ∧
      setupKstack p s =
        (0, { s with pages := pages }.setProc p { s.proc p with kstack := page2kva page }) := by
  rw [setupKstack]
  rcases s.pages.alloc_cases kstackPage with ⟨rest, h⟩ | ⟨page, rest, hdisj, h⟩
  · rw [h]
    exact .inl ⟨_, rfl, rfl⟩
  · rw [h]
    exact .inr ⟨page, _, hdisj, rfl, rfl⟩

/-- **The new process becomes known** under a number that was not in use. -/
theorem linkProc_spec (H : s.Inv idle) {t : Kern} {p : ℕ} (hlist : t.procList = s.procList)
    (hpids : t.pids = s.pids) (hproc : ∀ q ∈ s.slab.live, t.proc q = s.proc q) :
    ∃ pid pids, linkProc p t = .ok { t with
        pids := pids
        proc := Function.update t.proc p { t.proc p with pid := pid }
        hashList := Function.update t.hashList (pidHashfn pid) (p :: t.hashList (pidHashfn pid))
        procList := p :: t.procList
        nrProcess := t.nrProcess + 1 } ∧
      1 ≤ pid ∧ pid < maxPid ∧ pid ∉ s.pidList ∧ pids.Inv (pid :: s.pidList) := by
  have hpidList : (t.procList.map fun q => (t.proc q).pid) = s.pidList := by
    rw [hlist, pidList]
    exact List.map_congr_left fun q hq => by
      rw [hproc q (H.sound.live q (List.mem_cons_of_mem idle hq))]
  have hlen : (s.pidList.length : ℤ) < maxPid - 1 := by
    have h1 := H.count
    have h2 := H.le_max
    simp only [pidList, List.length_map, maxProcess, maxPid] at *
    omega
  obtain ⟨pid, pids, hget, hone, hmax, hunused, hinv⟩ := getPid_spec H.pids hlen
  refine ⟨pid, pids, ?_, hone, hmax, hunused, hinv⟩
  rw [linkProc, hpidList, hpids, hget, Res.ok_bind]
  simp only [hashProc, setProc_proc_self]
  rfl

/-- **`do_fork` behind `alloc_proc`**: the process `p` is in memory and not yet known. -/
theorem forkChild_spec (H : s.Inv idle) (hroom : s.nrProcess < maxProcess) {t : Kern} {p : ℕ}
    {v : Proc}
    {slab : Pool ℕ} (hp : p ∉ s.slab.live) (hlive : slab.live = insert p s.slab.live)
    (ht : t = { s with slab := slab }.setProc p v) (hstate : v.state = .uninit) (hmm : v.mm = none)
    (hparent : v.parent = s.current) (cloneFlags stack : ℕ) (tf : Trapframe) :
    ∃ ret s', forkChild cloneFlags stack tf p t = .ok (ret, s') ∧
      (ret < 0 ∧ Untouched s s' ∨ Forked s s' ret p) := by
  have hne : ∀ q ∈ s.slab.live, q ≠ p := fun q hq h => hp (h ▸ hq)
  have hmem : p ∈ slab.live := hlive ▸ Finset.mem_insert_self ..
  subst ht
  set t := { s with slab := slab }.setProc p v with ht
  rw [forkChild]
  rcases setupKstack_spec t p with ⟨pages, hstack, hpages⟩ | ⟨page, pages, hdisj, hpages, hstack⟩
  · -- no stack: the process is given back
    have hfree : ({ t with pages := pages } : Kern).kfree p =
        .ok { t with pages := pages, slab := slab.give p } := if_pos hmem
    refine ⟨-eNoMem, { t with pages := pages, slab := slab.give p }, ?_,
      .inl ⟨by decide, rfl, rfl, rfl, rfl, rfl, rfl, ?_, hpages, fun q hq => ?_⟩⟩
    · rw [hstack]
      show (Kern.kfree _ p >>= fun s => pure (-eNoMem, s)) = _
      rw [hfree]
      rfl
    · show slab.live.erase p = s.slab.live
      rw [hlive, Finset.erase_insert hp]
    · exact setProc_proc_of_ne _ _ (hne q hq)
  · obtain ⟨c, hc, hcmem⟩ := H.sound.current
    have hclive := H.sound.live c hcmem
    set v₂ : Proc := { v with kstack := page2kva page } with hv₂
    set t₂ := { t with pages := pages }.setProc p { t.proc p with kstack := page2kva page } with ht₂
    have ht₂p : t₂.proc p = v₂ := by
      rw [ht₂, setProc_proc_self, ht, setProc_proc_self]
    have hproc₂ : ∀ q ∈ s.slab.live, t₂.proc q = s.proc q := fun q hq =>
      (setProc_proc_of_ne _ _ (hne q hq)).trans (setProc_proc_of_ne _ _ (hne q hq))
    have hcopy : copyMm cloneFlags p t₂ = .ok 0 := by
      have hget : t₂.getProc t₂.current = .ok (c, t₂.proc c) := by
        rw [show t₂.current = some c from hc]
        exact if_pos (show c ∈ slab.live by rw [hlive]; exact Finset.mem_insert_of_mem hclive)
      have hmm₂ : (t₂.proc c).mm = none := by
        rw [hproc₂ c hclive]
        exact H.mm c hcmem
      rw [copyMm, hget, Res.ok_bind]
      show (assert ((t₂.proc c).mm = none) >>= _) = _
      rw [assert_pos hmm₂]
      rfl
    set t₃ := copyThread p stack tf t₂ with ht₃
    have hproc₃ : ∀ q ∈ s.slab.live, t₃.proc q = s.proc q := fun q hq =>
      (setProc_proc_of_ne _ _ (hne q hq)).trans (hproc₂ q hq)
    have hself₃ : (t₃.proc p).state = .uninit ∧ (t₃.proc p).mm = none ∧
        (t₃.proc p).parent = s.current := by
      rw [ht₃, copyThread, setProc_proc_self]
      show (t₂.proc p).state = _ ∧ (t₂.proc p).mm = _ ∧ (t₂.proc p).parent = _
      rw [ht₂p]
      exact ⟨hstate, hmm, hparent⟩
    obtain ⟨pid, pids, hlink, hone, hmax, hunused, hinv⟩ := linkProc_spec H (p := p)
      (show t₃.procList = s.procList from rfl) (show t₃.pids = s.pids from rfl) hproc₃
    set t₄ : Kern := { t₃ with
      pids := pids
      proc := Function.update t₃.proc p { t₃.proc p with pid := pid }
      hashList := Function.update t₃.hashList (pidHashfn pid) (p :: t₃.hashList (pidHashfn pid))
      procList := p :: t₃.procList
      nrProcess := t₃.nrProcess + 1 } with ht₄
    have hself₄ : t₄.proc p = { t₃.proc p with pid := pid } := Function.update_self ..
    have hwake : wakeupProc p t₄ = .ok (t₄.setProc p { t₄.proc p with state := .runnable }) := by
      rw [wakeupProc, assert_pos]
      · rfl
      · rw [hself₄]
        show (t₃.proc p).state ≠ _ ∧ (t₃.proc p).state ≠ _
        rw [hself₃.1]
        decide
    refine ⟨pid, t₄.setProc p { t₄.proc p with state := .runnable }, ?_,
      .inr ⟨hp, hlive, ⟨page, hdisj, hpages⟩,
      hone, hmax, hunused, hinv, rfl, rfl, rfl, hroom, rfl, rfl, ?_, ?_, ?_, ?_, fun q hq => ?_⟩⟩
    · rw [hstack]
      show (copyMm cloneFlags p t₂ >>= _) = _
      rw [hcopy, Res.ok_bind]
      show (linkProc p t₃ >>= _) = _
      rw [hlink, Res.ok_bind, hwake, Res.ok_bind, setProc_proc_self, hself₄]
      rfl
    · rw [setProc_proc_self, hself₄]
    · rw [setProc_proc_self]
    · rw [setProc_proc_self, hself₄]
      exact hself₃.2.2
    · rw [setProc_proc_self, hself₄]
      exact hself₃.2.1
    · rw [setProc_proc_of_ne _ _ (hne q hq)]
      exact (Function.update_of_ne (hne q hq) ..).trans (hproc₃ q hq)

/-- **`do_fork` adds one runnable process, or leaves no trace.** -/
theorem doFork_spec (H : s.Inv idle) (cloneFlags stack : ℕ) (tf : Trapframe) :
    ∃ ret s', doFork cloneFlags stack tf s = .ok (ret, s') ∧
      (ret < 0 ∧ Untouched s s' ∨ ∃ p, Forked s s' ret p) := by
  by_cases hfull : s.nrProcess ≥ maxProcess
  · refine ⟨-eNoFreeProc, s, ?_, .inl ⟨by decide, rfl, rfl, rfl, rfl, rfl, rfl, rfl, rfl,
      fun _ _ => rfl⟩⟩
    rw [doFork, if_pos hfull]
  rw [doFork, if_neg hfull]
  rcases allocProc_spec s with ⟨slab, halloc, hlive⟩ | ⟨p, slab, v, hp, hlive, halloc, hstate, hmm⟩
  · rw [halloc]
    exact ⟨-eNoMem, _, rfl, .inl ⟨by decide, rfl, rfl, rfl, rfl, rfl, rfl, hlive, rfl,
      fun _ _ => rfl⟩⟩
  · rw [halloc]
    have hset : ({ s with slab := slab }.setProc p v).setProc p
        { ({ s with slab := slab }.setProc p v).proc p with parent := s.current } =
        { s with slab := slab }.setProc p { v with parent := s.current } := by
      rw [setProc_proc_self, setProc, setProc, setProc]
      simp only [Function.update_idem]
    obtain ⟨ret, s', hrun, hres⟩ := forkChild_spec H
      (not_le.1 hfull) hp hlive hset hstate hmm rfl cloneFlags
      stack tf
    exact ⟨ret, s', hrun, hres.imp_right fun h => ⟨p, h⟩⟩

theorem Inv.of_scheduled (H : s.Inv idle) (h : Scheduled s s') (hs : s'.Sound idle) :
    s'.Inv idle := by
  have hpids : s'.pidList = s.pidList := by
    rw [pidList, pidList, h.procList]
    exact List.map_congr_left fun p _ => h.pid p
  refine ⟨hs, ?_, ?_, ?_, ?_, ?_, ?_, ?_, ?_⟩
  · rw [h.pid]
    exact H.idle_pid
  · rw [h.procList]
    intro p hp
    rw [h.pid]
    exact H.pid_range p hp
  · rw [hpids]
    exact H.pid_nodup
  · intro b
    rw [h.hashList, h.procList, H.hash b]
    exact List.filter_congr fun p _ => by rw [h.pid]
  · rw [h.nrProcess, h.procList]
    exact H.count
  · rw [h.nrProcess]
    exact H.le_max
  · rw [h.pids, hpids]
    exact H.pids
  · rw [h.procList]
    intro p hp
    rw [h.mm]
    exact H.mm p hp

/-! ## `proc_init` -/

/-- The kernel before `proc_init`: there is no process. -/
structure Booting (s : Kern) : Prop where
  nrProcess : s.nrProcess = 0
  pids : s.pids = PidState.init

/-- The process table with only the idle process. -/
theorem Inv.alone {p : ℕ} (hlist : s.procList = []) (hhash : s.hashList = fun _ => [])
    (hcount : s.nrProcess = 0) (hpids : s.pids = PidState.init) (hlive : p ∈ s.slab.live)
    (hmm : (s.proc p).mm = none) : (initIdle p s).Inv p := by
  have hlist' : (initIdle p s).procList = [] := hlist
  have hself : (initIdle p s).proc p = { s.proc p with
      pid := 0
      state := .runnable
      kstack := s.sym.bootstack
      needResched := true } := Function.update_self ..
  have hnil : (initIdle p s).pidList = [] := by rw [pidList, hlist']; rfl
  have hcount' : (initIdle p s).nrProcess = 1 := congrArg (· + 1) hcount
  refine ⟨⟨rfl, ?_, ?_, ⟨p, rfl, List.mem_cons_self ..⟩⟩, ?_, ?_, ?_, ?_, ?_, ?_, ?_, ?_⟩
  · rw [hlist']
    intro q hq
    rw [List.mem_singleton.1 hq]
    exact hlive
  · rw [hlist']
    exact List.nodup_singleton p
  · rw [hself]
  · rw [hlist']
    exact fun q hq => absurd hq List.not_mem_nil
  · rw [hnil]
    exact List.nodup_nil
  · intro b
    show s.hashList b = _
    rw [hhash, hlist']
    rfl
  · rw [hcount', hlist']
    rfl
  · rw [hcount']
    decide
  · rw [hnil]
    show s.pids.Inv []
    rw [hpids]
    exact PidState.Inv.init
  · rw [hlist']
    intro q hq
    rw [List.mem_singleton.1 hq, hself]
    exact hmm

/-- The assignment to `initproc` and the assertions. -/
theorem initEnd_inv {pid : ℤ} (H : s.Inv idle) (h : initEnd pid s = .ok s') : s'.Inv idle := by
  have hs' : s' = { s with initproc := findProc pid s } := by
    rw [initEnd] at h
    by_cases hpid : pid ≤ 0
    · rw [if_pos hpid] at h
      cases h
    · rw [if_neg hpid] at h
      obtain ⟨⟨p, v⟩, -, h⟩ := Res.bind_eq_ok.1 h
      obtain ⟨-, h⟩ := assert_bind_eq_ok.1 h
      obtain ⟨⟨q, w⟩, -, h⟩ := Res.bind_eq_ok.1 h
      obtain ⟨-, h⟩ := assert_bind_eq_ok.1 h
      exact (Except.ok.inj h).symm
  have hsame : Untouched s s' := by
    rw [hs']
    exact ⟨rfl, rfl, rfl, rfl, rfl, rfl, rfl, rfl, fun _ _ => rfl⟩
  exact hsame.inv H

/-- What `do_fork` keeps. -/
theorem Inv.doFork {cloneFlags stack : ℕ} {tf : Trapframe} {ret : ℤ} (H : s.Inv idle)
    (h : doFork cloneFlags stack tf s = .ok (ret, s')) : s'.Inv idle := by
  obtain ⟨ret', s₁, hrun, hres⟩ := doFork_spec H cloneFlags stack tf
  rw [h] at hrun
  cases hrun
  rcases hres with ⟨-, hres⟩ | ⟨p, hres⟩
  · exact hres.inv H
  · exact hres.inv H

/-- **`proc_init` makes a consistent process table.** -/
theorem procInit_spec (hboot : s.Booting) (h : procInit s = .ok s') : ∃ idle, s'.Inv idle := by
  rw [procInit] at h
  rcases allocProc_spec { s with procList := [], hashList := fun _ => [] } with
    ⟨slab, halloc, -⟩ | ⟨p, slab, v, -, hlive, halloc, -, hmm⟩
  · simp only [halloc] at h
    cases h
  · simp only [halloc] at h
    set s₁ := { s with procList := [], hashList := fun _ => [], slab := slab }.setProc p v with hs₁
    have hmem : p ∈ s₁.slab.live := by
      show p ∈ slab.live
      rw [hlive]
      exact Finset.mem_insert_self ..
    have hself : (s₁.proc p).mm = none := by
      rw [hs₁, setProc_proc_self]
      exact hmm
    have H₁ : (initIdle p s₁).Inv p := Inv.alone rfl rfl hboot.nrProcess hboot.pids hmem hself
    obtain ⟨⟨pid, s₂⟩, hfork, hend⟩ := Res.bind_eq_ok.1 h
    exact ⟨p, initEnd_inv (H₁.doFork hfork) hend⟩

/-! ## Runs -/

/-- The answers of the allocators to the requests to come. -/
def supply (s : Kern) (objects pages : List (Option ℕ)) : Kern :=
  { s with slab := { s.slab with script := objects }, pages := { s.pages with script := pages } }

/-- The states after `proc_init` and any number of forks, with calls of `schedule` in between. -/
inductive ForkRun : Kern → Prop
  | init {s s' : Kern} (hboot : s.Booting) (hinit : procInit s = .ok s') : ForkRun s'
  | fork {s s' : Kern} {cloneFlags stack : ℕ} {tf : Trapframe} {ret : ℤ}
      {objects pages : List (Option ℕ)} (run : ForkRun s)
      (hfork : doFork cloneFlags stack tf (s.supply objects pages) = .ok (ret, s')) : ForkRun s'
  | schedule {s s' : Kern} (run : ForkRun s) (hsched : schedule s = .ok s') : ForkRun s'

theorem Inv.supply (H : s.Inv idle) (objects pages : List (Option ℕ)) :
    (s.supply objects pages).Inv idle := by
  have hsame : Untouched s (s.supply objects pages) :=
    ⟨rfl, rfl, rfl, rfl, rfl, rfl, rfl, rfl, fun _ _ => rfl⟩
  exact hsame.inv H

theorem ForkRun.inv (h : ForkRun s) : ∃ idle, s.Inv idle := by
  induction h with
  | init hboot hinit => exact procInit_spec hboot hinit
  | fork _ hfork ih =>
    obtain ⟨idle, H⟩ := ih
    exact ⟨idle, (H.supply _ _).doFork hfork⟩
  | schedule _ hsched ih =>
    obtain ⟨idle, H⟩ := ih
    obtain ⟨s₁, hrun, -, hs₁, hsound⟩ := schedule_spec H.sound
    rw [hsched] at hrun
    cases hrun
    exact ⟨idle, H.of_scheduled hs₁ hsound⟩

/-- **The process table stays consistent, and a failed fork leaves no trace.** -/
theorem process_table (h : ForkRun s) : ∃ idle, s.idleproc = some idle ∧ (s.proc idle).pid = 0 ∧
    idle ∉ s.procList ∧ s.procList.Nodup ∧ s.pidList.Nodup ∧
    (∀ p ∈ s.procList, 1 ≤ (s.proc p).pid ∧ (s.proc p).pid < maxPid) ∧
    (∀ pid p, findProc pid s = some p ↔ p ∈ s.procList ∧ (s.proc p).pid = pid) ∧
    (∀ b : UInt32, hashListSize ≤ b.toNat → s.hashList b = []) ∧
    s.nrProcess = s.procList.length + 1 ∧ s.nrProcess ≤ maxProcess ∧
    ∀ cloneFlags stack tf objects pages, ∃ ret s',
      doFork cloneFlags stack tf (s.supply objects pages) = .ok (ret, s') ∧
      (ret < 0 → Untouched s s') ∧ (0 ≤ ret → ∃ p, Forked s s' ret p) := by
  obtain ⟨idle, H⟩ := h.inv
  obtain ⟨hidle, hnd⟩ := List.nodup_cons.1 H.sound.nodup
  refine ⟨idle, H.sound.idleproc, H.idle_pid, hidle, hnd, H.pid_nodup, H.pid_range, H.findProc_iff,
    fun b => H.hashList_eq_nil, H.count, H.le_max, ?_⟩
  intro cloneFlags stack tf objects pages
  obtain ⟨ret, s', hrun, hres⟩ := doFork_spec (H.supply objects pages) cloneFlags stack tf
  refine ⟨ret, s', hrun, ?_, ?_⟩
  · intro hneg
    rcases hres with ⟨-, h⟩ | ⟨p, h⟩
    · exact ⟨h.procList, h.hashList, h.nrProcess, h.pids, h.idleproc, h.current, h.slab, h.pages,
        h.proc⟩
    · have hone := h.one_le
      omega
  · intro hpos
    rcases hres with ⟨hneg, -⟩ | ⟨p, h⟩
    · omega
    · exact ⟨p, h.fresh, h.slab, h.pages, h.one_le, h.lt_max, h.unused, h.pids, h.procList,
        h.hashList,
        h.nrProcess, h.room, h.idleproc, h.current, h.pid, h.state, h.parent, h.mm, h.proc⟩

/-- The kernel of a machine with the slab objects from 16 on and the pages from 64 on. -/
def boot : Kern where
  sym := ⟨0x1000, 0x1100, 0x1200, 0x1300, 0x2000, 0x3000⟩
  proc _ := ⟨.zombie, 7, 0, 0, false, none, none, {}, none, 0, 0⟩
  tfs _ := {}
  procList := []
  hashList _ := []
  nrProcess := 0
  pids := PidState.init
  idleproc := none
  initproc := none
  current := none
  slab := ⟨∅, [some 16, some 17]⟩
  pages := ⟨∅, [some 64]⟩
  cpu := {}
  esp0 := 0
  cr3 := 0

/-- After `proc_init`, a fork that finds no stack. -/
theorem process_table_boot : ∃ s, ForkRun s ∧ s.procList = [17] ∧ findProc 1 s = some 17 ∧
    ∃ s', doFork 0 0 {} (s.supply [some 18] [none]) = .ok (-4, s') ∧ Untouched s s' := by
  have h : ForkRun _ := .init (s := boot) ⟨rfl, rfl⟩ rfl
  obtain ⟨idle, -, -, -, -, -, -, hfind, -, -, -, hfork⟩ := process_table h
  obtain ⟨ret, s', hrun, hneg, -⟩ := hfork 0 0 {} [some 18] [none]
  have hret : (.ok (-4) : Res ℤ) = .ok ret := congrArg (Except.map Prod.fst) hrun
  cases hret
  exact ⟨_, h, rfl, (hfind 1 17).2 ⟨by decide, rfl⟩, s', hrun, hneg (by decide)⟩

end Kern

end Ucore
