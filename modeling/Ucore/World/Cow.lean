import Ucore.World.Access
import Ucore.World.Reclaim

/-!
# Copy on write is an eager copy

`dup_mmap` lets the two address spaces share their frames, without `PTE_W`, and `do_pgfault` makes a
copy when one of them writes.  In the eager model below every address space has pages of its own,
and `dup_mmap` copies all of them at once.  `World.cow_is_eager` says that whatever a run returns
the eager model may return, and since a read of a page that has been touched is determined there, it
is determined here.

What makes this work is that a frame which is writable somewhere is mapped nowhere else (`Vm.Sole`).

## The eager model

`Eager` has the areas of the address spaces, as the user sees them, and for each of their pages its
contents, or nothing if it has not been touched.  `Eager.Step` is a relation, since the model leaves
open when there is no memory, and what a page contains when it is touched for the first time.  A
failure changes nothing in it, except that a `dup_mmap` which fails may have copied some of the
areas.

## The simulation

`World.eager` shows a world as a state of the eager model: the contents of a page are those of the
frame that its entry refers to.  The kernel is followed operation by operation.

* A fault shows nothing new to anybody, except in a page that was not touched before
  (`Faulted.touched`).  This is where the three ways of `Fetched` matter: a page that was shared is
  copied, so its contents are the same.
* A write changes the contents of one page only (`setByte_contents`), because the frame is writable
  and hence mapped nowhere else.
* `mm_unmap` and `exit_mmap` take pages away (`Unmapped.contents`, `contents_exit`), and the frames
  that they free are in no other page.
* `dup_mmap` shows the pages of the source in the copy (`Duped.contents`), and none of the entries
  that it has copied is writable, in either directory (`Duped.sole`).

`eager_step` puts them together, with `Vm.Sole` as the invariant that is kept, and `Run.eager` is
the induction on the run.  That an operation on private areas always returns is `plain_returns`, so
the theorem is about all operations and not only about those that have an answer.
-/

set_option autoImplicit false

namespace Ucore

open Vm

/-! ## The eager model -/

/-- Every address space has its own pages.  A page that has not been touched has no contents. -/
structure Eager where
  next : ℕ
  pages : ℕ → ℕ → Option (ℕ → UInt8)

namespace Eager

/-- Nothing has been created. -/
def init : Eager := ⟨0, fun _ _ => none⟩

/-- The pages of one address space after an operation. -/
def set (e : Eager) (i : ℕ) (pages : ℕ → Option (ℕ → UInt8)) : Eager :=
  { e with pages := Function.update e.pages i pages }

/-- The contents of one page after an operation. -/
def put (e : Eager) (i pg : ℕ) (c : ℕ → UInt8) : Eager :=
  e.set i (Function.update (e.pages i) pg (some c))

theorem put_self {e : Eager} {i pg : ℕ} {c : ℕ → UInt8} (h : e.pages i pg = some c) :
    e.put i pg c = e := by
  rw [put, set, ← h, Function.update_eq_self, Function.update_eq_self]

/-- A new address space. -/
def add (e : Eager) (pages : ℕ → Option (ℕ → UInt8)) : Eager :=
  { e.set e.next pages with next := e.next + 1 }

/-- **What an operation may do** and return.  A failure changes nothing; after a `dup_mmap` that
failed, there is a part of the copy. -/
inductive Step (e : Eager) : Op → Ret → Eager → Prop
  | mmCreate (script : List (Option ℕ)) : Step e (.mmCreate script) (.code 0) (e.add fun _ => none)
  | mmMap (i addr len : ℕ) (flags : VmFlags) (r : ℤ) : Step e (.mmMap i addr len flags) (.code r) e
  | mmUnmap (i addr len : ℕ) : Step e (.mmUnmap i addr len) (.code 0)
      (e.set i fun pg => if roundDown addr pgSize ≤ pg * pgSize ∧
        pg * pgSize < roundUp (addrAdd addr len) pgSize then none else e.pages i pg)
  | mmUnmapFails (i addr len : ℕ) {r : ℤ} (hr : r ≠ 0) : Step e (.mmUnmap i addr len) (.code r) e
  | dupMmap (src : ℕ) (script : List (Option ℕ)) :
      Step e (.dupMmap src script) (.code 0) (e.add (e.pages src))
  | dupMmapFails (src : ℕ) (script : List (Option ℕ)) {r : ℤ} (hr : r ≠ 0)
      {pages : ℕ → Option (ℕ → UInt8)} (hpart : ∀ pg, pages pg = none ∨ pages pg = e.pages src pg) :
      Step e (.dupMmap src script) (.code r) (e.add pages)
  | exitMmap (i : ℕ) : Step e (.exitMmap i) (.code 0) (e.set i fun _ => none)
  | mmDestroy (i : ℕ) : Step e (.mmDestroy i) (.code 0) e
  | read (i addr : ℕ) {c : ℕ → UInt8} (hc : e.pages i (addr / pgSize) = some c) :
      Step e (.read i addr) (.value (c (addr % pgSize))) e
  | readFirst (i addr : ℕ) (c : ℕ → UInt8) (hc : e.pages i (addr / pgSize) = none) :
      Step e (.read i addr) (.value (c (addr % pgSize))) (e.put i (addr / pgSize) c)
  | readFails (i addr : ℕ) {r : ℤ} (hr : r ≠ 0) (hc : e.pages i (addr / pgSize) = none) :
      Step e (.read i addr) (.code r) e
  | write (i addr : ℕ) (b : UInt8) {c : ℕ → UInt8} (hc : e.pages i (addr / pgSize) = some c) :
      Step e (.write i addr b) (.code 0)
        (e.put i (addr / pgSize) (Function.update c (addr % pgSize) b))
  | writeFirst (i addr : ℕ) (b : UInt8) (c : ℕ → UInt8) (hc : e.pages i (addr / pgSize) = none) :
      Step e (.write i addr b) (.code 0)
        (e.put i (addr / pgSize) (Function.update c (addr % pgSize) b))
  | writeFails (i addr : ℕ) (b : UInt8) {r : ℤ} (hr : r ≠ 0) : Step e (.write i addr b) (.code r) e
  | supply (frames objects nodes : List (Option ℕ)) :
      Step e (.supply frames objects nodes) (.code 0) e
  | supplyMm (i : ℕ) (script : List (Option ℕ)) : Step e (.supplyMm i script) (.code 0) e
  | scribble (page : ℕ) (contents : ℕ → UInt8) : Step e (.scribble page contents) (.code 0) e

/-- A page that has been touched reads as what it contains. -/
theorem Step.read_touched {e e' : Eager} {i addr : ℕ} {ret : Ret} {c : ℕ → UInt8}
    (h : Step e (.read i addr) ret e') (hc : e.pages i (addr / pgSize) = some c) :
    ret = .value (c (addr % pgSize)) ∧ e' = e := by
  cases h with
  | read _ _ hc' =>
    rw [hc, Option.some.injEq] at hc'
    rw [hc']
    exact ⟨rfl, rfl⟩
  | readFirst _ _ c' hnone =>
    rw [hc] at hnone
    cases hnone
  | readFails _ _ _ hnone =>
    rw [hc] at hnone
    cases hnone

/-- The runs of the eager model. -/
inductive Run : List (Op × Ret) → Eager → Prop
  | init : Run [] init
  | step {ops : List (Op × Ret)} {e e' : Eager} {op : Op} {ret : Ret} (run : Run ops e)
      (hstep : Step e op ret e') : Run ((op, ret) :: ops) e'

end Eager

/-! ## Contents of pages -/

/-- The contents of a page, if it has been touched. -/
def Vm.contents (s : Vm) (d pg : ℕ) : Option (ℕ → UInt8) :=
  (s.lookup d (pg * pgSize)).target.map s.mem

/-- **A frame that is writable somewhere is mapped nowhere else.** -/
def Vm.Sole (s : Vm) : Prop := ∀ d la e lb p, (s.lookup d la).perm.writable = true →
  (s.lookup d la).target = some p → (s.lookup e lb).target = some p → userSlot e lb = userSlot d la

/-- The eager model of a world. -/
def World.eager (w : World) : Eager := ⟨w.next, w.vm.contents⟩

/-- The operations on private areas. -/
def Op.plain : Op → Bool
  | .shmemCreate _ | .mmMapShmem _ _ _ _ | .pgfault _ _ _ => false
  | _ => true

/-- What the user knows of an area: where it is, and its flags. -/
def Vma.bounds (a : Vma) : ℕ × ℕ × VmFlags := (a.vmStart, a.vmEnd, a.vmFlags)

theorem Op.unshared_of_plain {op : Op} (h : op.plain = true) : op.unshared = true := by
  cases op with
  | mmMapShmem i addr flags shmem => cases h
  | _ => rfl

section Contents

variable {s s' : Vm}

theorem lookup_congr {d la lb : ℕ} (h : la / pgSize = lb / pgSize) :
    s.lookup d la = s.lookup d lb := by
  show s.slots (userSlot d la) = s.slots (userSlot d lb)
  rw [userSlot_inj.2 ⟨rfl, h⟩]

theorem contents_eq (d la : ℕ) : s.contents d (la / pgSize) = (s.lookup d la).target.map s.mem := by
  rw [Vm.contents, lookup_congr (Nat.mul_div_left _ (by decide))]

/-- Entries and contents that are the same. -/
theorem contents_congr {d pg : ℕ} (hslot : (s'.lookup d (pg * pgSize)).target =
    (s.lookup d (pg * pgSize)).target)
    (hmem : ∀ p, (s.lookup d (pg * pgSize)).target = some p → s'.mem p = s.mem p) :
    s'.contents d pg = s.contents d pg := by
  rw [Vm.contents, Vm.contents, hslot]
  cases htarget : (s.lookup d (pg * pgSize)).target with
  | none => rfl
  | some p => rw [Option.map_some, Option.map_some, hmem p htarget]

theorem contents_none {d pg : ℕ} (h : s.lookup d (pg * pgSize) = Pte.zero) :
    s.contents d pg = none := by
  rw [Vm.contents, h]
  rfl

/-- Entries that were cleared do no harm. -/
theorem Vm.Sole.of_sub (h : s.Sole)
    (hsub : ∀ d la, s'.lookup d la = s.lookup d la ∨ s'.lookup d la = Pte.zero) : s'.Sole := by
  intro d la e lb p hw ht ht'
  rcases hsub d la with hd | hd
  · rcases hsub e lb with he | he
    · rw [hd] at hw ht
      rw [he] at ht'
      exact h d la e lb p hw ht ht'
    · rw [he] at ht'
      cases ht'
  · rw [hd] at ht
    cases ht

/-! ## Faults -/

/-- What a user access may do to the contents of pages: the page that is accessed gets contents, if
it had none. -/
structure Touched (i addr : ℕ) (s s' : Vm) : Prop where
  sole : s.Sole → s'.Sole
  other : ∀ d pg, ¬ (d = i ∧ pg = addr / pgSize) → s'.contents d pg = s.contents d pg
  same : s.contents i (addr / pgSize) ≠ none →
    s'.contents i (addr / pgSize) = s.contents i (addr / pgSize)

theorem Touched.refl (i addr : ℕ) (s : Vm) : Touched i addr s s :=
  ⟨id, fun _ _ _ => rfl, fun _ => rfl⟩

/-- The page that is accessed is the only one that may get contents. -/
theorem Touched.contents_eq {i addr : ℕ} (h : Touched i addr s s') :
    s'.contents = Function.update s.contents i
      (Function.update (s.contents i) (addr / pgSize) (s'.contents i (addr / pgSize))) := by
  funext d pg
  by_cases hd : d = i
  · subst hd
    rw [Function.update_self]
    by_cases hpg : pg = addr / pgSize
    · subst hpg
      rw [Function.update_self]
    · rw [Function.update_of_ne hpg]
      exact h.other d pg fun h => hpg h.2
  · rw [Function.update_of_ne hd]
    exact h.other d pg fun h => hd h.1

/-- **A fault in a private area** shows nothing new to anybody, except in a page that was not
touched before. -/
theorem Faulted.touched {a : Vma} {i addr : ℕ} {ret : ℤ} (H : s.Good ∅)
    (hshare : a.vmFlags.share = false)
    (hf : Faulted a i addr ret s s') : Touched i addr s s' ∧
    (ret ≠ 0 → s'.contents = s.contents) := by
  by_cases hret : ret = 0
  · obtain ⟨p, hslots, hfetch⟩ := hf.done hret
    have hfetch := hfetch hshare
    have hself : s'.lookup i addr = ⟨p, true, ⟨a.vmFlags.write, true⟩⟩ :=
      (hslots i (pdx addr) (ptx addr)).trans (Function.update_self ..)
    have hother : ∀ d la, userSlot d la ≠ userSlot i addr → s'.lookup d la = s.lookup d la :=
      fun d la hne => (hslots d (pdx la) (ptx la)).trans (Function.update_of_ne hne ..)
    -- no other page has the frame that the entry refers to now
    have hown : ∀ d la, userSlot d la ≠ userSlot i addr → (s.lookup d la).target ≠ some p := by
      intro d la hne ht
      cases hfetch with
      | fresh _ hp _ => exact hp (userSlot d la) ht
      | copy q _ hp _ => exact hp (userSlot d la) ht
      | reuse hp hrefs _ => exact hne (eq_of_refs_le_one H.finite hrefs hp ht)
    have hmem : ∀ q, q ≠ p → s'.mem q = s.mem q := by
      intro q hq
      cases hfetch with
      | fresh _ _ hmem => rw [hmem]
      | copy r _ _ hmem => rw [hmem, Function.update_of_ne hq]
      | reuse _ _ hmem => rw [hmem]
    refine ⟨⟨fun hsole d la e lb r hw ht ht' => ?_, fun d pg hne => ?_, fun htouched => ?_⟩,
      fun h => absurd hret h⟩
    · by_cases hd : userSlot d la = userSlot i addr
      · by_cases he : userSlot e lb = userSlot i addr
        · rw [hd, he]
        · have hr : (s'.lookup i addr).target = some r := by
            rw [← ht]
            exact congrArg (fun x => (s'.slots x).target) hd.symm
          rw [hself] at hr
          rw [hother e lb he, ← hr] at ht'
          exact absurd ht' (hown e lb he)
      · rw [hother d la hd] at hw ht
        by_cases he : userSlot e lb = userSlot i addr
        · have hr : (s'.lookup i addr).target = some r := by
            rw [← ht']
            exact congrArg (fun x => (s'.slots x).target) he.symm
          rw [hself] at hr
          rw [← hr] at ht
          exact absurd ht (hown d la hd)
        · rw [hother e lb he] at ht'
          exact hsole d la e lb r hw ht ht'
    · have hx : userSlot d (pg * pgSize) ≠ userSlot i addr := by
        intro h
        have h1 := userSlot_inj.1 h
        rw [Nat.mul_div_left _ (by decide)] at h1
        exact hne h1
      refine contents_congr (by rw [hother d _ hx]) fun q hq => hmem q ?_
      rintro rfl
      exact hown d _ hx hq
    · rw [contents_eq] at htouched ⊢
      rw [contents_eq, hself, Pte.target_mk, Option.map_some]
      cases hfetch with
      | fresh hzero _ _ =>
        rw [show s.lookup i addr = Pte.zero from hzero] at htouched
        exact absurd rfl htouched
      | copy q hq _ hmem =>
        rw [show (s.lookup i addr).target = some q from hq, hmem, Function.update_self]
        rfl
      | reuse hp _ hmem =>
        rw [show (s.lookup i addr).target = some p from hp, hmem]
        rfl
  · obtain ⟨hslots, hmem⟩ := hf.fail hret
    have hlook : ∀ d la, s'.lookup d la = s.lookup d la := fun d la => hslots d (pdx la) (ptx la)
    have hsame : s'.contents = s.contents := by
      funext d pg
      exact contents_congr (by rw [hlook]) fun p _ => by rw [hmem]
    refine ⟨⟨fun hsole => hsole.of_sub fun d la => .inl (hlook d la), ?_, ?_⟩, fun _ => hsame⟩
    · exact fun d pg _ => by rw [hsame]
    · exact fun _ => by rw [hsame]

/-- **A write changes one page only.** -/
theorem setByte_contents (hsole : s.Sole) {i addr p : ℕ}
    (hw : (s.lookup i addr).perm.writable = true)
    (hp : (s.lookup i addr).target = some p) (off : ℕ) (b : UInt8) :
    (s.setByte p off b).Sole ∧ (s.setByte p off b).contents = Function.update s.contents i
      (Function.update (s.contents i) (addr / pgSize)
      (some (Function.update (s.mem p) off b))) := by
  have hlook : ∀ d la, (s.setByte p off b).lookup d la = s.lookup d la := fun _ _ => rfl
  refine ⟨hsole.of_sub fun d la => .inl rfl, ?_⟩
  funext d pg
  by_cases hself : d = i ∧ pg = addr / pgSize
  · obtain ⟨rfl, rfl⟩ := hself
    rw [Function.update_self, Function.update_self, contents_eq, hlook, hp, Option.map_some]
    exact congrArg some (Function.update_self ..)
  · have hrest : Function.update s.contents i (Function.update (s.contents i) (addr / pgSize)
        (some (Function.update (s.mem p) off b))) d pg = s.contents d pg := by
      by_cases hd : d = i
      · subst hd
        rw [Function.update_self, Function.update_of_ne fun h => hself ⟨rfl, h⟩]
      · rw [Function.update_of_ne hd]
    rw [hrest]
    refine contents_congr rfl fun q hq => Function.update_of_ne ?_ ..
    rintro rfl
    have h1 := userSlot_inj.1 (hsole i addr d (pg * pgSize) q hw hp hq)
    rw [Nat.mul_div_left _ (by decide)] at h1
    exact hself h1

/-! ## `mm_unmap` and `dup_mmap` -/

/-- **`mm_unmap` takes away the pages of its range** and no others. -/
theorem Unmapped.contents {i start stop : ℕ} {l : List Vma} (hun : Unmapped i start stop l s s')
    (hstart : start % pgSize = 0) (hstop : stop % pgSize = 0) (H : s.Good ∅)
    (hcov : ∀ la, (s.slots (userSlot i la)).present = true → ∃ a ∈ l, a.Has la) :
    (s.Sole → s'.Sole) ∧ s'.contents = Function.update s.contents i fun pg =>
      if start ≤ pg * pgSize ∧ pg * pgSize < stop then none else s.contents i pg := by
  have hrange : ∀ la lb, la / pgSize = lb / pgSize → start ≤ la → la < stop →
      start ≤ lb ∧ lb < stop := by
    intro la lb hpage h1 h2
    simp only [pgSize] at *
    omega
  -- the entries of the range that were present belong to areas
  have hin : ∀ la, start ≤ la → la < stop → s'.lookup i la = Pte.zero := by
    intro la h1 h2
    by_cases hhas : ∃ a ∈ l, ∃ lb, start ≤ lb ∧ lb < stop ∧ a.Has lb ∧ userSlot i la = userSlot i lb
    · obtain ⟨a, ha, lb, h3, h4, hlb, hslot⟩ := hhas
      show s'.slots (userSlot i la) = Pte.zero
      rw [hslot]
      exact hun.cleared a ha lb h3 h4 hlb
    · have hsame : s'.slots (userSlot i la) = s.slots (userSlot i la) :=
        hun.other i _ _ fun a ha lb h3 h4 hlb h => hhas ⟨a, ha, lb, h3, h4, hlb, h⟩
      refine hsame.trans (H.absent _ (Pte.target_eq_none.2 (Bool.eq_false_iff.2 fun hpres => ?_)))
      obtain ⟨a, ha, hla⟩ := hcov la hpres
      exact hhas ⟨a, ha, la, h1, h2, hla, rfl⟩
  have hout : ∀ d la, ¬ (d = i ∧ start ≤ la ∧ la < stop) → s'.lookup d la = s.lookup d la := by
    intro d la hne
    refine hun.other d _ _ fun a _ lb h1 h2 _ h => hne ?_
    obtain ⟨hd, hpage⟩ := userSlot_inj.1 (show userSlot d la = userSlot i lb from h)
    exact ⟨hd, hrange lb la hpage.symm h1 h2⟩
  constructor
  · intro hsole
    refine hsole.of_sub fun d la => ?_
    by_cases hla : d = i ∧ start ≤ la ∧ la < stop
    · obtain ⟨rfl, h1, h2⟩ := hla
      exact .inr (hin la h1 h2)
    · exact .inl (hout d la hla)
  · funext d pg
    have hkeep : ¬ (d = i ∧ start ≤ pg * pgSize ∧ pg * pgSize < stop) →
        s'.contents d pg = s.contents d pg := by
      intro hne
      exact contents_congr (by rw [hout d _ hne]) fun p _ => by rw [hun.mem]
    by_cases hd : d = i
    · subst hd
      rw [Function.update_self]
      by_cases hpg : start ≤ pg * pgSize ∧ pg * pgSize < stop
      · rw [if_pos hpg]
        exact contents_none (hin _ hpg.1 hpg.2)
      · rw [if_neg hpg]
        exact hkeep fun h => hpg h.2
    · rw [Function.update_of_ne hd]
      exact hkeep fun h => hd h.1

/-- An entry after `dup_mmap`: one of the two that have been copied, or what it was before. -/
theorem Duped.lookup {dst src : ℕ} {cs : List Vma} (hdup : Duped dst src cs s s')
    (hshare : ∀ c ∈ cs, c.vmFlags.share = false) (d la : ℕ) :
    (d = dst ∨ d = src) ∧ CopiedAt dst src false la s s' ∨ s'.lookup d la = s.lookup d la := by
  by_cases hx : ∀ c ∈ cs, ∀ lb, c.Has lb → userSlot d la ≠ userSlot dst lb ∧
    userSlot d la ≠ userSlot src lb
  · exact .inr (hdup.other d _ _ hx)
  · push Not at hx
    obtain ⟨c, hc, lb, hlb, hx⟩ := hx
    have hpage : (d = dst ∨ d = src) ∧ la / pgSize = lb / pgSize := by
      by_cases hdst : userSlot d la = userSlot dst lb
      · exact ⟨.inl (userSlot_inj.1 hdst).1, (userSlot_inj.1 hdst).2⟩
      · exact ⟨.inr (userSlot_inj.1 (hx hdst)).1, (userSlot_inj.1 (hx hdst)).2⟩
    have hslot : ∀ e, userSlot e la = userSlot e lb := fun e => userSlot_inj.2 ⟨rfl, hpage.2⟩
    rcases hdup.copy c hc lb hlb with hcopy | ⟨h1, h2⟩
    · rw [hshare c hc, CopiedAt, ← hslot, ← hslot] at hcopy
      exact .inl ⟨hpage.1, hcopy⟩
    · right
      show s'.slots (userSlot d la) = s.slots (userSlot d la)
      rw [hslot]
      rcases hpage.1 with rfl | rfl
      · exact h1
      · exact h2

/-- **No entry that `dup_mmap` has copied is writable.** -/
theorem Duped.sole {dst src : ℕ} {cs : List Vma} (hdup : Duped dst src cs s s')
    (hshare : ∀ c ∈ cs, c.vmFlags.share = false) (hsole : s.Sole) : s'.Sole := by
  intro d la e lb p hw ht ht'
  have hlook := hdup.lookup hshare
  -- an entry that is writable now has not been copied
  have hkeep : s'.lookup d la = s.lookup d la := by
    rcases hlook d la with ⟨rfl | rfl, hcopy⟩ | h
    · rw [show s'.lookup d la = _ from hcopy.1] at hw
      cases hw
    · rw [show s'.lookup d la = _ from hcopy.2] at hw
      cases hw
    · exact h
  rcases hlook e lb with ⟨hd, hcopy⟩ | h
  · exfalso
    have hsrc : (s.lookup src lb).target = some p := by
      rcases hd with rfl | rfl
      · rw [show s'.lookup e lb = _ from hcopy.1, Pte.protect_target] at ht'
        exact ht'
      · rw [show s'.lookup e lb = _ from hcopy.2, Pte.protect_target] at ht'
        exact ht'
    have hsame : userSlot src lb = userSlot d la :=
      hsole d la src lb p (hkeep ▸ hw) (hkeep ▸ ht) hsrc
    have hw' : (s'.slots (userSlot src lb)).perm.writable = true := by
      rw [hsame]
      exact hw
    rw [hcopy.2] at hw'
    cases hw'
  · rw [h] at ht'
    rw [hkeep] at hw ht
    exact hsole d la e lb p hw ht ht'

/-- **`dup_mmap` shows the pages of the source in the copy**, or, if it has failed, some of them. -/
theorem Duped.contents {dst src : ℕ} {cs : List Vma} (hdup : Duped dst src cs s s')
    (hshare : ∀ c ∈ cs, c.vmFlags.share = false)
    (hfresh : ∀ k j, s.slots (.dir dst k, j) = Pte.zero) :
    (∀ d, d ≠ dst → s'.contents d = s.contents d) ∧
    ∀ pg, s'.contents dst pg = none ∨ s'.contents dst pg = s.contents src pg := by
  have hmem : ∀ e : Pte, e.target.map s'.mem = e.target.map s.mem := fun e => by rw [hdup.mem]
  constructor
  · intro d hd
    funext pg
    rw [Vm.contents, Vm.contents, hmem]
    rcases hdup.lookup hshare d (pg * pgSize) with ⟨rfl | rfl, hcopy⟩ | h
    · exact absurd rfl hd
    · rw [show s'.lookup d (pg * pgSize) = _ from hcopy.2, Pte.protect_target]
      rfl
    · rw [h]
  · intro pg
    rcases hdup.lookup hshare dst (pg * pgSize) with ⟨-, hcopy⟩ | h
    · right
      rw [Vm.contents, Vm.contents, hmem, show s'.lookup dst (pg * pgSize) = _ from hcopy.1,
        Pte.protect_target]
      rfl
    · exact .inl (contents_none (h.trans (hfresh _ _)))

/-- What was not copied is in no area, if all areas were. -/
theorem Duped.contents_all {dst src : ℕ} {cs : List Vma} (hdup : Duped dst src cs s s')
    (hshare : ∀ c ∈ cs, c.vmFlags.share = false)
    (hfresh : ∀ k j, s.slots (.dir dst k, j) = Pte.zero)
    (hcov : ∀ la, (s.slots (userSlot src la)).present = true → ∃ a ∈ cs, a.Has la)
    (hfull : ∀ c ∈ cs, ∀ la, c.Has la → CopiedAt dst src c.vmFlags.share la s s') :
    s'.contents dst = s.contents src := by
  funext pg
  rcases (hdup.contents hshare hfresh).2 pg with hnone | hsome
  · rw [hnone, eq_comm, Vm.contents, Option.map_eq_none_iff, Pte.target_eq_none, Bool.eq_false_iff]
    intro hpres
    obtain ⟨a, ha, hhas⟩ := hcov (pg * pgSize) hpres
    have hcopy := (hfull a ha (pg * pgSize) hhas).1
    rw [Vm.contents, Option.map_eq_none_iff, show s'.lookup dst (pg * pgSize) = _ from hcopy,
      Pte.protect_target, Pte.target_eq_none] at hnone
    rw [show (s.lookup src (pg * pgSize)).present = false from hnone] at hpres
    cases hpres
  · exact hsome

/-- **`exit_mmap` takes away all pages** of its address space. -/
theorem contents_exit {i : ℕ} (hgone : ∀ la, s'.lookup i la = Pte.zero)
    (hkeep : ∀ d, d ≠ i → ∀ la, s'.lookup d la = s.lookup d la) (hmem : s'.mem = s.mem) :
    (s.Sole → s'.Sole) ∧ s'.contents = Function.update s.contents i fun _ => none := by
  constructor
  · intro hsole
    refine hsole.of_sub fun d la => ?_
    by_cases hd : d = i
    · exact .inr (hd ▸ hgone la)
    · exact .inl (hkeep d hd la)
  · funext d pg
    by_cases hd : d = i
    · rw [hd, Function.update_self]
      exact contents_none (hgone _)
    · rw [Function.update_of_ne hd]
      exact contents_congr (by rw [hkeep d hd]) fun p _ => by rw [hmem]

/-- Frames that are not mapped may change. -/
theorem contents_scribble {page : ℕ} (hpage : ∀ d la, (s.lookup d la).target ≠ some page)
    (contents : ℕ → UInt8) :
    ({ s with mem := Function.update s.mem page contents } : Vm).contents = s.contents := by
  funext d pg
  refine contents_congr rfl fun p hp => Function.update_of_ne ?_ ..
  rintro rfl
  exact hpage d _ hp

end Contents

namespace World

variable {w w' : World} {i : ℕ} {op : Op} {ret : Ret} {ops : List (Op × Ret)}

/-! ## User accesses -/

theorem access_touched (H : w.Inv) (hns : w.NoShare) {addr : ℕ} {write : Bool} {r : ℤ}
    (h : w.access i addr write = .ok (r, w')) :
    Touched i addr w.vm w'.vm ∧ (r ≠ 0 → w'.vm.contents = w.vm.contents) := by
  obtain ⟨hi, rfl | ⟨mm, vm, hrun, rfl⟩⟩ := access_cases h
  · exact ⟨Touched.refl i addr w'.vm, fun _ => rfl⟩
  · rcases doPgfault_spec (H.mm i hi) H.good (H.areas_backed hi)
        ((w.vm.lookup (w.mm i).pgdir addr).errorCode write) addr with
      ⟨mm', -, -, -, -, hrun'⟩ | ⟨a, ha, -, ⟨hrun', -⟩ | ⟨ret, mm', vm', -, -, -, -, hrun', hf⟩⟩
    · rw [hrun'] at hrun
      cases hrun
      exact ⟨Touched.refl i addr w.vm, fun _ => rfl⟩
    · rw [hrun'] at hrun
      cases hrun
    · rw [hrun'] at hrun
      cases hrun
      rw [H.pgdir i hi] at hf
      exact hf.touched H.good (hns i hi a ha)

/-- A page that has been touched can be read. -/
theorem Coherent.permits_read (C : w.Coherent) (H : w.Inv) (hi : i ∈ w.mms) {addr : ℕ}
    (h : w.vm.contents i (addr / pgSize) ≠ none) : (w.vm.lookup i addr).permits false = true := by
  rw [contents_eq] at h
  cases hpres : (w.vm.lookup i addr).present with
  | false =>
    rw [Pte.target_eq_none.2 hpres] at h
    exact absurd rfl h
  | true =>
    obtain ⟨a, ha, hhas⟩ := H.covered i hi addr hpres
    have huser := ((C.area i hi a ha).perm addr hhas hpres).user
    rw [Pte.permits, hpres, show (w.vm.lookup i addr).perm.user = true from huser]
    rfl

/-- The entry of an access that is made again. -/
theorem retry_ok (H : w.Inv) {addr : ℕ} {write : Bool} {e : Pte}
    (h : w.retry i addr write = .ok e) : e = w.vm.lookup i addr ∧ e.permits write = true := by
  obtain ⟨mm, hmm, h⟩ := Res.bind_eq_ok.1 h
  have hi := mem_of_getMm hmm
  rw [getMm_mem hi] at hmm
  cases hmm
  rw [H.pgdir i hi] at h
  by_cases hperm : (w.vm.lookup i addr).permits write = true
  · simp only [if_pos hperm] at h
    cases h
    exact ⟨rfl, hperm⟩
  · simp only [if_neg hperm] at h
    cases h

theorem target_of_permits {e : Pte} {write : Bool} (h : e.permits write = true) :
    e.target = some e.frame := by
  rw [Pte.permits, Bool.and_eq_true, Bool.and_eq_true] at h
  exact Pte.target_eq_some.2 ⟨h.1.1, rfl⟩

/-- **A read is a read of the eager model.** -/
theorem eager_read (H : w.Inv) (C : w.Coherent) (hns : w.NoShare) {addr : ℕ}
    (h : w.step (.read i addr) = .ok (ret, w')) :
    (w.vm.Sole → w'.vm.Sole) ∧ Eager.Step w.eager (.read i addr) ret w'.eager := by
  have hi : i ∈ w.mms := pointers_of_step h
  obtain ⟨⟨r, w₁⟩, hacc, h⟩ := Res.bind_eq_ok.1 h
  obtain ⟨htouch, hfail⟩ := access_touched H hns hacc
  have hnext := (access_mms hacc).1
  have H₁ := (H.access_change hacc).2
  by_cases hr : r ≠ 0
  · simp only [if_pos hr] at h
    cases h
    have hsame : w'.eager = w.eager := by rw [World.eager, hnext, hfail hr, World.eager]
    rw [hsame]
    refine ⟨htouch.sole, .readFails i addr hr ?_⟩
    -- a page that has been touched is read without a fault
    by_contra htouched
    have hperm := C.permits_read H hi htouched
    simp only [World.access, getMm_mem hi, Res.ok_bind, H.pgdir i hi, if_pos hperm] at hacc
    cases hacc
    exact hr rfl
  · simp only [if_neg hr] at h
    obtain ⟨e, he, h⟩ := Res.bind_eq_ok.1 h
    cases h
    obtain ⟨rfl, hperm⟩ := retry_ok H₁ he
    have hcont : w'.vm.contents i (addr / pgSize) =
        some (w'.vm.mem (w'.vm.lookup i addr).frame) := by
      rw [contents_eq, target_of_permits hperm, Option.map_some]
    refine ⟨htouch.sole, ?_⟩
    have heager : w'.eager = w.eager.put i (addr / pgSize)
        (w'.vm.mem (w'.vm.lookup i addr).frame) := by
      rw [World.eager, hnext, htouch.contents_eq, hcont]
      rfl
    cases hc : w.vm.contents i (addr / pgSize) with
    | none =>
      rw [heager]
      exact .readFirst i addr _ hc
    | some c =>
      have hsame := htouch.same (by rw [hc]; exact Option.some_ne_none c)
      rw [hcont, hc, Option.some.injEq] at hsame
      rw [heager, hsame, Eager.put_self hc]
      exact .read i addr hc

/-- **A write is a write of the eager model.** -/
theorem eager_write (H : w.Inv) (hns : w.NoShare) (hsole : w.vm.Sole) {addr : ℕ} {b : UInt8}
    (h : w.step (.write i addr b) = .ok (ret, w')) :
    w'.vm.Sole ∧ Eager.Step w.eager (.write i addr b) ret w'.eager := by
  obtain ⟨⟨r, w₁⟩, hacc, h⟩ := Res.bind_eq_ok.1 h
  obtain ⟨htouch, hfail⟩ := access_touched H hns hacc
  have hnext := (access_mms hacc).1
  have H₁ := (H.access_change hacc).2
  by_cases hr : r ≠ 0
  · simp only [if_pos hr] at h
    cases h
    have hsame : w'.eager = w.eager := by rw [World.eager, hnext, hfail hr, World.eager]
    rw [hsame]
    exact ⟨htouch.sole hsole, .writeFails i addr b hr⟩
  · simp only [if_neg hr] at h
    obtain ⟨e, he, h⟩ := Res.bind_eq_ok.1 h
    cases h
    obtain ⟨rfl, hperm⟩ := retry_ok H₁ he
    have htarget := target_of_permits hperm
    set p := (w₁.vm.lookup i addr).frame
    have hw : (w₁.vm.lookup i addr).perm.writable = true := by
      rw [Pte.permits, Bool.not_true, Bool.false_or, Bool.and_eq_true] at hperm
      exact hperm.2
    have hcont : w₁.vm.contents i (addr / pgSize) = some (w₁.vm.mem p) := by
      rw [contents_eq, htarget, Option.map_some]
    obtain ⟨hsole', hset⟩ := setByte_contents (htouch.sole hsole) hw htarget (addr % pgSize) b
    refine ⟨hsole', ?_⟩
    have heager : World.eager { w₁ with vm := w₁.vm.setByte p (addr % pgSize) b } =
        w.eager.put i (addr / pgSize) (Function.update (w₁.vm.mem p) (addr % pgSize) b) := by
      rw [World.eager]
      show (⟨w₁.next, (w₁.vm.setByte p (addr % pgSize) b).contents⟩ : Eager) = _
      rw [hset, hnext, htouch.contents_eq, Function.update_idem, Function.update_self,
        Function.update_idem]
      rfl
    rw [heager]
    cases hc : w.vm.contents i (addr / pgSize) with
    | none => exact .writeFirst i addr b _ hc
    | some c =>
      have hsame := htouch.same (by rw [hc]; exact Option.some_ne_none c)
      rw [hcont, hc, Option.some.injEq] at hsame
      rw [hsame]
      exact .write i addr b hc

/-! ## Every operation -/

/-- A new address space, with the contents that it shows. -/
theorem eager_add (mm : Mm) {vm : Vm} (h : ∀ d, d ≠ w.next → vm.contents d = w.vm.contents d) :
    (w.add mm vm).eager = w.eager.add (vm.contents w.next) := by
  show (⟨w.next + 1, vm.contents⟩ : Eager) = ⟨w.next + 1, Function.update w.vm.contents w.next _⟩
  congr 1
  funext d
  by_cases hd : d = w.next
  · rw [hd, Function.update_self]
  · rw [Function.update_of_ne hd, h d hd]

theorem contents_of_slots {vm : Vm} (hslots : SameDirs w.vm vm) (hmem : vm.mem = w.vm.mem) :
    (w.vm.Sole → vm.Sole) ∧ vm.contents = w.vm.contents := by
  have hlook : ∀ d la, vm.lookup d la = w.vm.lookup d la := fun d la => hslots d (pdx la) (ptx la)
  refine ⟨fun hsole => hsole.of_sub fun d la => .inl (hlook d la), ?_⟩
  funext d pg
  exact contents_congr (by rw [hlook]) fun p _ => by rw [hmem]

/-- **Every operation on private areas is one of the eager model**, and frames that are writable
stay private. -/
theorem eager_step (H : w.Inv) (C : w.Coherent) (hns : w.NoShare) (hsole : w.vm.Sole)
    (hop : op.plain = true) (h : w.step op = .ok (ret, w')) :
    w'.vm.Sole ∧ Eager.Step w.eager op ret w'.eager := by
  have hptr := pointers_of_step h
  have hcut := hns.not_cuts hptr
  cases op with
  | mmCreate script =>
    cases h
    refine ⟨hsole, ?_⟩
    rw [eager_add (w.newMm script) fun _ _ => rfl]
    have hnone : w.vm.contents w.next = fun _ => none := by
      funext pg
      exact contents_none (H.fresh w.next le_rfl _ _)
    rw [hnone]
    exact .mmCreate script
  | shmemCreate len => cases hop
  | mmMap i addr len flags =>
    simp only [World.step, getMm_mem hptr, Res.ok_bind] at h
    obtain ⟨⟨r, v, mm⟩, -, h⟩ := Res.bind_eq_ok.1 h
    cases h
    exact ⟨hsole, .mmMap i addr len flags r⟩
  | mmMapShmem i addr flags shmem => cases hop
  | mmUnmap i addr len =>
    obtain ⟨r, mm, vm, hrun, -, hres⟩ := H.mmUnmap hptr addr len hcut rfl rfl
    simp only [World.step, getMm_mem hptr, hrun, Res.ok_bind] at h
    cases h
    rcases hres with ⟨hr, -, rfl⟩ | ⟨rfl, -, hun, -⟩
    · exact ⟨hsole, .mmUnmapFails i addr len hr⟩
    · obtain ⟨hsole', hcont⟩ := hun.contents (roundDown_mod _ _) (roundUp_mod _ _) H.good
        (H.covered i hptr)
      refine ⟨hsole' hsole, ?_⟩
      have heager : (w.set i mm vm).eager = w.eager.set i _ := congrArg (Eager.mk w.next) hcont
      rw [heager]
      exact .mmUnmap i addr len
  | pgfault i errorCode addr => cases hop
  | dupMmap src script =>
    obtain ⟨r, mm, vm, as, cs, hrun, -, hareas, -, hdup, hres⟩ := H.dupMmap hptr script
    simp only [World.step, getMm_mem hptr, hrun, Res.ok_bind] at h
    cases h
    have hshare : ∀ c ∈ cs, c.vmFlags.share = false :=
      fun c hc => hns src hptr c (by rw [hareas]; exact List.mem_append_right _ hc)
    have hfresh := H.fresh w.next le_rfl
    obtain ⟨hother, hpart⟩ := hdup.contents hshare hfresh
    refine ⟨hdup.sole hshare hsole, ?_⟩
    rw [eager_add mm hother]
    rcases hres with ⟨rfl, rfl, hfull⟩ | rfl
    · have hcov := H.covered src hptr
      rw [hareas, List.nil_append] at hcov
      have hall := hdup.contents_all hshare hfresh hcov hfull
      rw [hall]
      exact .dupMmap src script
    · exact .dupMmapFails src script (by decide) hpart
  | exitMmap i =>
    obtain ⟨vm₁, vm, hrun, -, hrest, hempty, hother, hexit, -⟩ := H.exitMmap hptr
    simp only [World.step, getMm_mem hptr, hrun, Res.ok_bind] at h
    cases h
    have hgone : ∀ la, vm.lookup i la = Pte.zero := by
      intro la
      show vm.slots (userSlot i la) = Pte.zero
      rw [hexit.slots]
      exact hempty _ _
    have hkeep : ∀ d, d ≠ i → ∀ la, vm.lookup d la = w.vm.lookup d la := by
      intro d hd la
      show vm.slots (userSlot d la) = w.vm.slots (userSlot d la)
      rw [hexit.slots]
      exact hother _ fun k h => hd (Owner.dir.inj h).1
    obtain ⟨hsole', hcont⟩ := contents_exit hgone hkeep (hexit.mem.trans hrest.mem)
    have heager : (w.set i (w.mm i) vm).eager = w.eager.set i _ := congrArg (Eager.mk w.next) hcont
    rw [heager]
    exact ⟨hsole' hsole, .exitMmap i⟩
  | mmDestroy i =>
    obtain ⟨mm, vm, hrun, -, hdirs, hmem, -⟩ := H.mmDestroy hptr
    simp only [World.step, getMm_mem hptr, hrun, Res.ok_bind] at h
    cases h
    obtain ⟨hsole', hcont⟩ := contents_of_slots hdirs hmem
    have heager : World.eager { w with mms := w.mms.erase i, vm := vm } = w.eager :=
      congrArg (Eager.mk w.next) hcont
    rw [heager]
    exact ⟨hsole' hsole, .mmDestroy i⟩
  | read i addr =>
    obtain ⟨hsole', hstep⟩ := eager_read H C hns h
    exact ⟨hsole' hsole, hstep⟩
  | write i addr b => exact eager_write H hns hsole h
  | supply frames objects nodes =>
    cases h
    exact ⟨hsole, .supply frames objects nodes⟩
  | supplyMm i script =>
    simp only [World.step, getMm_mem hptr, Res.ok_bind] at h
    cases h
    exact ⟨hsole, .supplyMm i script⟩
  | scribble page contents =>
    have hp : page ∉ w.vm.frames.live := hptr
    simp only [World.step, if_neg hp] at h
    cases h
    refine ⟨hsole, ?_⟩
    have hcont := contents_scribble (s := w.vm)
      (fun d la ht => hp (H.good.used (userSlot d la) page ht).1)
      contents
    have heager : World.eager { w with vm :=
      { w.vm with mem := Function.update w.vm.mem page contents } } =
        w.eager := congrArg (Eager.mk w.next) hcont
    rw [heager]
    exact .scribble page contents

/-- An operation on private areas always returns. -/
theorem plain_returns (H : w.Inv) (C : w.Coherent) (hns : w.NoShare) (hop : op.plain = true)
    (hptr : Pointers w op) : ∃ ret w', w.step op = .ok (ret, w') := by
  rcases H.step (hns.not_cuts hptr) hptr with ⟨herr, hfaults⟩ | ⟨ret, w', hrun, -⟩
  · exfalso
    have hretry : ∀ (i addr : ℕ) (write : Bool), i ∈ w.mms → ∀ f : ℤ × World → Res (Ret × World),
        (∀ r w₁, w₁.Inv → i ∈ w₁.mms → (r = 0 → (w₁.vm.lookup i addr).permits write = true) →
          f (r, w₁) ≠ .error .assertion) → (w.access i addr write >>= f) ≠ .error .assertion := by
      intro i addr write hi f hf
      obtain ⟨r, w₁, hacc, H₁, hi₁, hperm⟩ := C.access_ok H hi addr write
      rw [hacc]
      exact hf r w₁ H₁ hi₁ hperm
    cases op with
    | read i addr =>
      refine hretry i addr false hptr _ (fun r w₁ H₁ hi₁ hperm herr => ?_) herr
      by_cases hr : r ≠ 0
      · simp only [if_pos hr] at herr
        cases herr
      · simp only [if_neg hr, World.retry, getMm_mem hi₁, Res.ok_bind, H₁.pgdir i hi₁,
          if_pos (hperm (not_not.1 hr))] at herr
        cases herr
    | write i addr b =>
      refine hretry i addr true hptr _ (fun r w₁ H₁ hi₁ hperm herr => ?_) herr
      by_cases hr : r ≠ 0
      · simp only [if_pos hr] at herr
        cases herr
      · simp only [if_neg hr, World.retry, getMm_mem hi₁, Res.ok_bind, H₁.pgdir i hi₁,
          if_pos (hperm (not_not.1 hr))] at herr
        cases herr
    | pgfault i errorCode addr => cases hop
    | _ => cases hfaults
  · exact ⟨ret, w', hrun⟩

/-- The run in which no shared area is cut, since there are none. -/
theorem Run.plain (h : Run (fun _ op => op.plain = true) ops w) :
    Run (fun w op => op.unshared = true ∧ ¬ CutsShared w op) ops w := by
  induction h with
  | init => exact .init
  | step _ hop hstep ih =>
    obtain ⟨-, hns⟩ := ih.unshared fun _ _ h => h.1
    exact ih.step ⟨Op.unshared_of_plain hop, hns.not_cuts (pointers_of_step hstep)⟩ hstep

/-- Every run on private areas is a run of the eager model. -/
theorem Run.eager (h : Run (fun _ op => op.plain = true) ops w) :
    w.vm.Sole ∧ Eager.Run ops w.eager := by
  induction h with
  | init =>
    refine ⟨fun d la e lb p hw => ?_, .init⟩
    cases hw
  | step run hop hstep ih =>
    have hplain := run.plain
    obtain ⟨H, hns⟩ := hplain.unshared fun _ _ h => h.1
    have C := hplain.coherent fun _ _ h => h.2
    obtain ⟨hsole, hstep'⟩ := eager_step H C hns ih.1 hop hstep
    exact ⟨hsole, ih.2.step hstep'⟩

/-- **Copy on write shows what an eager copy shows.**  Every run on private areas, with what its
operations return, is a run of the eager model, and so is every operation that comes next, which
always returns.  In particular a page that has been touched reads as the eager model says.  After a
successful `dup_mmap` the two address spaces have the same areas. -/
theorem cow_is_eager (h : Run (fun _ op => op.plain = true) ops w) :
    Eager.Run ops w.eager ∧
    (∀ op, op.plain = true → Pointers w op →
      ∃ ret w', w.step op = .ok (ret, w') ∧ Eager.Step w.eager op ret w'.eager) ∧
    (∀ i ∈ w.mms, ∀ addr c, w.eager.pages i (addr / pgSize) = some c →
      ∃ w', w.step (.read i addr) = .ok (.value (c (addr % pgSize)), w') ∧ w'.eager = w.eager) ∧
    (∀ src script w', w.step (.dupMmap src script) = .ok (.code 0, w') →
      (w'.mm w.next).areas.map Vma.bounds = (w.mm src).areas.map Vma.bounds) := by
  have hplain := h.plain
  obtain ⟨H, hns⟩ := hplain.unshared fun _ _ h => h.1
  have C := hplain.coherent fun _ _ h => h.2
  obtain ⟨hsole, hrun⟩ := h.eager
  have hnext : ∀ op, op.plain = true → Pointers w op →
      ∃ ret w', w.step op = .ok (ret, w') ∧ Eager.Step w.eager op ret w'.eager := by
    intro op hop hptr
    obtain ⟨ret, w', hstep⟩ := plain_returns H C hns hop hptr
    exact ⟨ret, w', hstep, (eager_step H C hns hsole hop hstep).2⟩
  refine ⟨hrun, hnext, ?_, ?_⟩
  · intro i hi addr c hc
    obtain ⟨ret, w', hstep, heager⟩ := hnext (.read i addr) rfl hi
    obtain ⟨rfl, hsame⟩ := heager.read_touched hc
    exact ⟨w', hstep, hsame⟩
  · intro src script w' hstep
    have hi : src ∈ w.mms := pointers_of_step hstep
    obtain ⟨r, mm, vm, as, cs, hdup, -, hareas, hcopy, -, hres⟩ := H.dupMmap hi script
    simp only [World.step, getMm_mem hi, hdup, Res.ok_bind] at hstep
    rcases hres with ⟨rfl, rfl, -⟩ | rfl
    · cases hstep
      rw [add_mm_next, hcopy, hareas,
        List.nil_append, List.map_map]
      refine List.map_congr_left fun c _ => ?_
      simp only [Function.comp_apply, Vma.bounds, Vma.dup_start, Vma.dup_end, Vma.dup_flags]
    · cases hstep

/-- A page is written to, the address space is copied, and the copy writes to the page. -/
def forkedOps : List (Op × Ret) :=
  [(.write 1 0x400123 9, .code 0), (.dupMmap 0 [some 1], .code 0), (.write 0 0x400123 7, .code 0),
    (.mmMap 0 0x400000 0x1000 { write := true }, .code 0),
    (.supply [some 5, some 6, some 7, some 8] [] [], .code 0), (.mmCreate [some 1], .code 0)]

/-- Each of the two address spaces reads what it has written. -/
theorem cow_is_eager_forked : ∃ w, Run (fun _ op => op.plain = true) forkedOps w ∧
    Eager.Run forkedOps w.eager ∧ (∃ w', w.step (.read 0 0x400123) = .ok (.value 7, w')) ∧
    ∃ w', w.step (.read 1 0x400123) = .ok (.value 9, w') := by
  have h₀ : Run (fun _ op => op.plain = true) [] World.init := .init
  have h₁ := h₀.step rfl (show World.init.step (.mmCreate [some 1]) = .ok (.code 0, _) from rfl)
  have h₂ := h₁.step rfl
    (show World.step _ (.supply [some 5, some 6, some 7, some 8] [] []) = .ok (.code 0, _) from rfl)
  have h₃ := h₂.step rfl
    (show World.step _ (.mmMap 0 0x400000 0x1000 { write := true }) = .ok (.code 0, _) from rfl)
  have h₄ := h₃.step rfl (show World.step _ (.write 0 0x400123 7) = .ok (.code 0, _) from rfl)
  have h₅ := h₄.step rfl (show World.step _ (.dupMmap 0 [some 1]) = .ok (.code 0, _) from rfl)
  have h₆ := h₅.step rfl (show World.step _ (.write 1 0x400123 9) = .ok (.code 0, _) from rfl)
  obtain ⟨heager, -, hread, -⟩ := cow_is_eager h₆
  obtain ⟨w₇, hr₇, -⟩ := hread 0 (by decide) 0x400123 _ rfl
  obtain ⟨w₈, hr₈, -⟩ := hread 1 (by decide) 0x400123 _ rfl
  exact ⟨_, h₆, heager, ⟨w₇, hr₇⟩, ⟨w₈, hr₈⟩⟩

end World

end Ucore
