import Mathlib.Data.Nat.Log
import Mathlib.Data.List.Perm.Basic
import Mathlib.Data.List.Sort
import Mathlib.Tactic.Common
import Mathlib.Tactic.Ring

/-!
# Coloured binary trees and their contexts

The shape behind a pointer structure: `Tree α` is a binary tree whose nodes carry a colour and a
label, and `Ctx α` is the way from a position up to the top, innermost frame first, so that
`plug c t` is the whole tree seen from the position of `t`.  An algorithm that walks up from a
node through parent pointers is an algorithm on contexts.

Everything that comes in a left and a right version is stated once, for a direction `d`:
`Tree.mk d c a x b` is the node whose child towards `d` is `a` and whose other child is `b`.

The red-black invariant is split along the same line.  `Tree.RB n t` says that `t` has no red node
with a red child and exactly `n` black nodes on every path, and `Ctx.RB n c` says that `c` turns
such a tree into a red-black tree with a black top, provided the two do not make a red edge where
they meet.  `RB_plug` and `RB_of_plug` go back and forth, and `height_le_log` is the bound that
makes the trees worth having.
-/

set_option autoImplicit false

namespace Ucore

/-- Left or right. -/
inductive Dir where
  | left
  | right
  deriving DecidableEq, Repr

/-- The other direction. -/
def Dir.other : Dir → Dir
  | .left => .right
  | .right => .left

@[simp] theorem Dir.other_left : Dir.left.other = .right := rfl

@[simp] theorem Dir.other_right : Dir.right.other = .left := rfl

@[simp] theorem Dir.other_other (d : Dir) : d.other.other = d := by cases d <;> rfl

@[simp] theorem Dir.other_ne (d : Dir) : d.other ≠ d := by cases d <;> decide

theorem Dir.eq_other_of_ne {d e : Dir} (h : d ≠ e) : d = e.other := by
  cases d <;> cases e <;> simp_all

/-- A binary tree with a colour and a label at every node. -/
inductive Tree (α : Type) where
  | nil
  | node (red : Bool) (l : Tree α) (x : α) (r : Tree α)
  deriving DecidableEq, Repr

namespace Tree

variable {α : Type}

/-- The labels from left to right. -/
def inorder : Tree α → List α
  | nil => []
  | node _ l x r => l.inorder ++ x :: r.inorder

/-- Whether the top node is red; the empty tree is black. -/
def isRed : Tree α → Bool
  | nil => false
  | node c _ _ _ => c

/-- The label at the top, or `z` for the empty tree. -/
def top (z : α) : Tree α → α
  | nil => z
  | node _ _ x _ => x

/-- The number of nodes on the longest path. -/
def height : Tree α → ℕ
  | nil => 0
  | node _ l _ r => max l.height r.height + 1

/-- The same tree with a top node of colour `c`. -/
def paint (c : Bool) : Tree α → Tree α
  | nil => nil
  | node _ l x r => node c l x r

/-- The node with child `a` towards `d` and child `b` on the other side. -/
def mk (d : Dir) (c : Bool) (a : Tree α) (x : α) (b : Tree α) : Tree α :=
  match d with
  | .left => node c a x b
  | .right => node c b x a

@[simp] theorem isRed_nil : (nil : Tree α).isRed = false := rfl

@[simp] theorem isRed_node (c : Bool) (l : Tree α) (x : α) (r : Tree α) :
    (node c l x r).isRed = c := rfl

@[simp] theorem top_nil (z : α) : (nil : Tree α).top z = z := rfl

@[simp] theorem top_node (z : α) (c : Bool) (l : Tree α) (x : α) (r : Tree α) :
    (node c l x r).top z = x := rfl

@[simp] theorem inorder_nil : (nil : Tree α).inorder = [] := rfl

@[simp] theorem inorder_node (c : Bool) (l : Tree α) (x : α) (r : Tree α) :
    (node c l x r).inorder = l.inorder ++ x :: r.inorder := rfl

@[simp] theorem paint_nil (c : Bool) : (nil : Tree α).paint c = nil := rfl

@[simp] theorem paint_node (c c' : Bool) (l : Tree α) (x : α) (r : Tree α) :
    (node c' l x r).paint c = node c l x r := rfl

@[simp] theorem inorder_paint (c : Bool) (t : Tree α) : (t.paint c).inorder = t.inorder := by
  cases t <;> rfl

@[simp] theorem isRed_mk (d : Dir) (c : Bool) (a : Tree α) (x : α) (b : Tree α) :
    (mk d c a x b).isRed = c := by cases d <;> rfl

@[simp] theorem top_mk (z : α) (d : Dir) (c : Bool) (a : Tree α) (x : α) (b : Tree α) :
    (mk d c a x b).top z = x := by cases d <;> rfl

@[simp] theorem paint_mk (c c' : Bool) (d : Dir) (a : Tree α) (x : α) (b : Tree α) :
    (mk d c' a x b).paint c = mk d c a x b := by cases d <;> rfl

/-- Every node is a node seen from any of its two sides. -/
theorem exists_mk (d : Dir) (c : Bool) (l : Tree α) (x : α) (r : Tree α) :
    ∃ a b, node c l x r = mk d c a x b := by
  cases d with
  | left => exact ⟨l, r, rfl⟩
  | right => exact ⟨r, l, rfl⟩

theorem mk_other (d : Dir) (c : Bool) (a : Tree α) (x : α) (b : Tree α) :
    mk d.other c a x b = mk d c b x a := by cases d <;> rfl

theorem inorder_mk_perm (d : Dir) (c : Bool) (a : Tree α) (x : α) (b : Tree α) :
    (mk d c a x b).inorder.Perm (x :: (a.inorder ++ b.inorder)) := by
  cases d with
  | left => exact List.perm_middle
  | right => exact List.perm_middle.trans (List.perm_append_comm.cons _)

/-- A descent: `r` tells for each label whether to stop (0), to go left or to go right. -/
def search (r : α → ℤ) : Tree α → Option α
  | nil => none
  | node _ a x b => if r x = 0 then some x else if 0 < r x then a.search r else b.search r

/-- The label `y` is above the label `x`. -/
def Above : Tree α → α → α → Prop
  | nil, _, _ => False
  | node _ a z b, y, x => y = z ∧ x ∈ a.inorder ++ b.inorder ∨ a.Above y x ∨ b.Above y x

theorem Above.mem {t : Tree α} {x y : α} (h : t.Above y x) : x ∈ t.inorder := by
  induction t with
  | nil => exact h.elim
  | node c a z b iha ihb =>
    rw [inorder_node, List.mem_append, List.mem_cons]
    rcases h with ⟨-, h⟩ | h | h
    · exact (List.mem_append.1 h).imp_right .inr
    · exact .inl (iha h)
    · exact .inr (.inr (ihb h))

theorem above_mk {d : Dir} {c : Bool} {a b : Tree α} {x y z : α} : (mk d c a z b).Above y x ↔
    y = z ∧ x ∈ a.inorder ++ b.inorder ∨ a.Above y x ∨ b.Above y x := by
  cases d with
  | left => exact Iff.rfl
  | right =>
    rw [List.mem_append, or_comm (a := x ∈ a.inorder), ← List.mem_append,
      or_comm (a := a.Above y x)]
    exact Iff.rfl

/-- What `found` should be if one looks for a label with `r x = 0`: the highest one. -/
structure Finds (r : α → ℤ) (t : Tree α) (found : Option α) : Prop where
  none_iff : found = none ↔ ∀ x ∈ t.inorder, r x ≠ 0
  some : ∀ x, found = some x → x ∈ t.inorder ∧ r x = 0 ∧ ∀ y, t.Above y x → r y ≠ 0

/-- It is enough to look in one of the subtrees if there is none elsewhere. -/
theorem Finds.attach {r : α → ℤ} {a b : Tree α} {found : Option α} {z : α} (h : a.Finds r found)
    (hz : r z ≠ 0) (hb : ∀ x ∈ b.inorder, r x ≠ 0) (d : Dir) (c : Bool) :
    (Tree.mk d c a z b).Finds r found := by
  have hmem : ∀ x, x ∈ (Tree.mk d c a z b).inorder ↔ x = z ∨ x ∈ a.inorder ∨ x ∈ b.inorder := by
    intro x
    rw [(inorder_mk_perm d c a z b).mem_iff, List.mem_cons, List.mem_append]
  refine ⟨?_, fun x hx => ?_⟩
  · rw [h.none_iff]
    constructor
    · intro ha x hx
      rcases (hmem x).1 hx with rfl | hx | hx
      · exact hz
      · exact ha x hx
      · exact hb x hx
    · exact fun hall x hx => hall x ((hmem x).2 (.inr (.inl hx)))
  · obtain ⟨hin, h0, habove⟩ := h.some x hx
    refine ⟨(hmem x).2 (.inr (.inl hin)), h0, fun y hy => ?_⟩
    rcases above_mk.1 hy with ⟨rfl, -⟩ | hy | hy
    · exact hz
    · exact habove y hy
    · exact absurd h0 (hb x hy.mem)

/-- **A descent finds what it should** if the labels on which it goes right come first, then those
on which it stops, and then those on which it goes left. -/
theorem search_finds {r : α → ℤ} {t : Tree α}
    (hr : t.inorder.Pairwise fun a b => (r a).sign ≤ (r b).sign) (hnd : t.inorder.Nodup) :
    t.Finds r (t.search r) := by
  induction t with
  | nil =>
    refine ⟨iff_of_true rfl fun x hx => absurd hx List.not_mem_nil, fun x hx => ?_⟩
    exact absurd hx (Option.some_ne_none x).symm
  | node c a z b iha ihb =>
    rw [inorder_node, List.pairwise_append, List.pairwise_cons] at hr
    rw [inorder_node, List.nodup_append, List.nodup_cons] at hnd
    rw [search]
    by_cases hz : r z = 0
    · rw [if_pos hz]
      refine ⟨iff_of_false (Option.some_ne_none z) fun h => h z (by simp) hz, fun x hx => ?_⟩
      obtain rfl : z = x := Option.some.inj hx
      refine ⟨by simp, hz, fun y hy => ?_⟩
      -- nothing is above the top
      have hnot : z ∉ a.inorder ++ b.inorder := by
        rw [List.mem_append, not_or]
        exact ⟨fun h => hnd.2.2 z h z (by simp) rfl, hnd.2.1.1⟩
      rcases hy with ⟨-, hy⟩ | hy | hy
      · exact absurd hy hnot
      · exact absurd (List.mem_append_left _ hy.mem) hnot
      · exact absurd (List.mem_append_right _ hy.mem) hnot
    · rw [if_neg hz]
      by_cases hpos : 0 < r z
      · rw [if_pos hpos]
        refine (iha hr.1 hnd.1).attach hz (fun x hx h0 => ?_) .left c
        have h1 := hr.2.1.1 x hx
        rw [h0, Int.sign_zero, Int.sign_eq_one_of_pos hpos] at h1
        omega
      · rw [if_neg hpos]
        refine (ihb hr.2.1.2 hnd.2.1.2).attach hz (fun x hx h0 => ?_) .right c
        have h1 := hr.2.2 x hx z (by simp)
        rw [h0, Int.sign_zero, Int.sign_eq_neg_one_of_neg (by omega)] at h1
        omega

/-- A single rotation does not change the in-order sequence. -/
theorem inorder_rotate (d : Dir) (c₁ c₂ c₃ c₄ : Bool) (a b c : Tree α) (x y : α) :
    (mk d c₁ a x (mk d c₂ b y c)).inorder = (mk d c₃ (mk d c₄ a x b) y c).inorder := by
  cases d <;> simp [mk]

/-- The in-order sequence of a node depends on its children only through theirs. -/
theorem inorder_mk_congr {d : Dir} {c c' : Bool} {a a' b b' : Tree α} {x : α}
    (ha : a.inorder = a'.inorder) (hb : b.inorder = b'.inorder) :
    (mk d c a x b).inorder = (mk d c' a' x b').inorder := by
  cases d <;> simp [mk, ha, hb]

theorem top_mem_inorder {z : α} {t : Tree α} (h : t ≠ nil) : t.top z ∈ t.inorder := by
  cases t with
  | nil => exact absurd rfl h
  | node c l x r => simp

/-! ## The red-black invariant -/

/-- No red node has a red child, and there are `n` black nodes on every path. -/
def RB : ℕ → Tree α → Prop
  | n, nil => n = 0
  | n, node true l _ r => RB n l ∧ RB n r ∧ l.isRed = false ∧ r.isRed = false
  | 0, node false _ _ _ => False
  | n + 1, node false l _ r => RB n l ∧ RB n r

@[simp] theorem RB_nil {n : ℕ} : RB n (nil : Tree α) ↔ n = 0 := by
  cases n <;> simp [RB]

@[simp] theorem RB_red {n : ℕ} {l r : Tree α} {x : α} :
    RB n (node true l x r) ↔ RB n l ∧ RB n r ∧ l.isRed = false ∧ r.isRed = false := by
  cases n <;> simp [RB]

@[simp] theorem RB_black_succ {n : ℕ} {l r : Tree α} {x : α} :
    RB (n + 1) (node false l x r) ↔ RB n l ∧ RB n r := by simp [RB]

theorem RB_black {n : ℕ} {l r : Tree α} {x : α} :
    RB n (node false l x r) ↔ ∃ m, n = m + 1 ∧ RB m l ∧ RB m r := by
  cases n <;> simp [RB]

@[simp] theorem RB_mk_red {n : ℕ} {d : Dir} {a b : Tree α} {x : α} :
    RB n (mk d true a x b) ↔ RB n a ∧ RB n b ∧ a.isRed = false ∧ b.isRed = false := by
  cases d <;> simp only [mk, RB_red]
  tauto

@[simp] theorem RB_mk_black_succ {n : ℕ} {d : Dir} {a b : Tree α} {x : α} :
    RB (n + 1) (mk d false a x b) ↔ RB n a ∧ RB n b := by
  cases d <;> simp only [mk, RB_black_succ]
  tauto

theorem RB_mk_black {n : ℕ} {d : Dir} {a b : Tree α} {x : α} :
    RB n (mk d false a x b) ↔ ∃ m, n = m + 1 ∧ RB m a ∧ RB m b := by
  cases n with
  | zero => cases d <;> simp [mk, RB]
  | succ n => simp

/-- A red tree may be painted black, for one more black node on every path. -/
theorem RB.paint_black {n : ℕ} {t : Tree α} (h : RB n t) (hr : t.isRed = true) :
    RB (n + 1) (t.paint false) := by
  cases t with
  | nil => simp at hr
  | node c l x r =>
    obtain rfl : c = true := hr
    exact RB_black_succ.2 ⟨(RB_red.1 h).1, (RB_red.1 h).2.1⟩

/-- A tree with black nodes on its paths is not empty. -/
theorem RB.exists_mk (d : Dir) {n : ℕ} {t : Tree α} (h : RB (n + 1) t) :
    ∃ c a x b, t = mk d c a x b := by
  cases t with
  | nil => simp at h
  | node c l x r =>
    obtain ⟨a, b, hab⟩ := Tree.exists_mk d c l x r
    exact ⟨c, a, x, b, hab⟩

/-- At most every second node on a path is red. -/
theorem RB.height_le {n : ℕ} {t : Tree α} (h : RB n t) :
    t.height ≤ 2 * n + (if t.isRed then 1 else 0) := by
  induction t generalizing n with
  | nil => simp [height]
  | node c l x r ihl ihr =>
    cases c with
    | true =>
      obtain ⟨hl, hr, hbl, hbr⟩ := RB_red.1 h
      have h1 := ihl hl
      have h2 := ihr hr
      simp only [hbl, hbr, Bool.false_eq_true, if_false] at h1 h2
      simp only [height, isRed_node, if_true]
      omega
    | false =>
      obtain ⟨m, rfl, hl, hr⟩ := RB_black.1 h
      have h1 := ihl hl
      have h2 := ihr hr
      have h3 : (if l.isRed then 1 else 0) ≤ 1 := by split <;> omega
      have h4 : (if r.isRed then 1 else 0) ≤ 1 := by split <;> omega
      simp only [height, isRed_node, Bool.false_eq_true, if_false]
      omega

/-- A tree with `n` black nodes on every path has at least `2 ^ n - 1` nodes. -/
theorem RB.pow_le {n : ℕ} {t : Tree α} (h : RB n t) : 2 ^ n ≤ t.inorder.length + 1 := by
  induction t generalizing n with
  | nil => simp_all
  | node c l x r ihl ihr =>
    rw [inorder_node, List.length_append, List.length_cons]
    cases c with
    | true =>
      have h1 := ihl (RB_red.1 h).1
      omega
    | false =>
      obtain ⟨m, rfl, hl, hr⟩ := RB_black.1 h
      have h1 := ihl hl
      have h2 := ihr hr
      rw [pow_succ]
      omega

/-- **The height bound**: twice the binary logarithm of the number of nodes plus one. -/
theorem RB.height_le_log {n : ℕ} {t : Tree α} (h : RB n t) (hb : t.isRed = false) :
    t.height ≤ 2 * Nat.log 2 (t.inorder.length + 1) := by
  have h1 : n ≤ Nat.log 2 (t.inorder.length + 1) :=
    Nat.le_log_of_pow_le (by omega) h.pow_le
  have h2 := h.height_le
  simp only [hb, Bool.false_eq_true, if_false] at h2
  omega

end Tree

/-! ## Contexts -/

/-- One step on the way up: the direction in which the hole lies, the colour and the label of the
node above it, and the tree on the other side. -/
structure Frame (α : Type) where
  dir : Dir
  red : Bool
  key : α
  sibling : Tree α
  deriving DecidableEq, Repr

/-- The node of a frame with its hole filled. -/
def Frame.attach {α : Type} (f : Frame α) (t : Tree α) : Tree α :=
  Tree.mk f.dir f.red t f.key f.sibling

/-- A tree with a hole, innermost frame first. -/
abbrev Ctx (α : Type) := List (Frame α)

namespace Ctx

variable {α : Type}

/-- The whole tree seen from the position of `t`. -/
def plug : Ctx α → Tree α → Tree α
  | [], t => t
  | f :: c, t => plug c (f.attach t)

/-- The labels to the left of the hole. -/
def before : Ctx α → List α
  | [] => []
  | f :: c =>
    match f.dir with
    | .left => before c
    | .right => before c ++ (f.sibling.inorder ++ [f.key])

/-- The labels to the right of the hole. -/
def after : Ctx α → List α
  | [] => []
  | f :: c =>
    match f.dir with
    | .left => f.key :: f.sibling.inorder ++ after c
    | .right => after c

/-- The labels of a context, from the hole upwards. -/
def keys : Ctx α → List α
  | [] => []
  | f :: c => f.key :: (f.sibling.inorder ++ keys c)

/-- The label above the hole, or `z` at the top. -/
def parent (z : α) : Ctx α → α
  | [] => z
  | f :: _ => f.key

/-- Whether the node above the hole is red. -/
def isRed : Ctx α → Bool
  | [] => false
  | f :: _ => f.red

@[simp] theorem plug_nil (t : Tree α) : plug [] t = t := rfl

@[simp] theorem plug_cons (f : Frame α) (c : Ctx α) (t : Tree α) :
    plug (f :: c) t = plug c (f.attach t) := rfl

@[simp] theorem parent_nil (z : α) : parent z ([] : Ctx α) = z := rfl

@[simp] theorem parent_cons (z : α) (f : Frame α) (c : Ctx α) : parent z (f :: c) = f.key := rfl

@[simp] theorem isRed_nil : isRed ([] : Ctx α) = false := rfl

@[simp] theorem isRed_cons (f : Frame α) (c : Ctx α) : isRed (f :: c) = f.red := rfl

@[simp] theorem keys_nil : keys ([] : Ctx α) = [] := rfl

@[simp] theorem keys_cons (f : Frame α) (c : Ctx α) :
    keys (f :: c) = f.key :: (f.sibling.inorder ++ keys c) := rfl

theorem plug_append (c c' : Ctx α) (t : Tree α) : plug (c ++ c') t = plug c' (plug c t) := by
  induction c generalizing t with
  | nil => rfl
  | cons f c ih => exact ih _

theorem inorder_plug (c : Ctx α) (t : Tree α) :
    (plug c t).inorder = before c ++ t.inorder ++ after c := by
  induction c generalizing t with
  | nil => simp [before, after]
  | cons f c ih =>
    obtain ⟨d, red, key, s⟩ := f
    rw [plug_cons, ih]
    cases d <;> simp [before, after, Frame.attach, Tree.mk]

theorem inorder_plug_congr {t t' : Tree α} (c : Ctx α) (h : t.inorder = t'.inorder) :
    (plug c t).inorder = (plug c t').inorder := by
  rw [inorder_plug, inorder_plug, h]

theorem inorder_plug_perm (c : Ctx α) (t : Tree α) :
    (plug c t).inorder.Perm (t.inorder ++ keys c) := by
  induction c generalizing t with
  | nil => simp
  | cons f c ih =>
    obtain ⟨d, red, key, s⟩ := f
    refine (ih _).trans ?_
    have h := (Tree.inorder_mk_perm d red t key s).append_right (keys c)
    refine h.trans ?_
    simp only [keys_cons, List.cons_append, List.append_assoc]
    exact List.perm_middle.symm

theorem length_le_keys (c : Ctx α) : c.length ≤ c.keys.length := by
  induction c with
  | nil => simp
  | cons f c ih =>
    simp only [List.length_cons, keys_cons, List.length_append]
    omega

/-- Every label of a tree sits at the top of some subtree. -/
theorem exists_plug {x : α} {t : Tree α} (h : x ∈ t.inorder) :
    ∃ c red l r, t = plug c (.node red l x r) := by
  induction t with
  | nil => simp at h
  | node red l y r ihl ihr =>
    rw [Tree.inorder_node, List.mem_append, List.mem_cons] at h
    rcases h with h | rfl | h
    · obtain ⟨c, red', l', r', rfl⟩ := ihl h
      exact ⟨c ++ [⟨.left, red, y, r⟩], red', l', r', by rw [plug_append]; rfl⟩
    · exact ⟨[], red, l, r, rfl⟩
    · obtain ⟨c, red', l', r', rfl⟩ := ihr h
      exact ⟨c ++ [⟨.right, red, y, l⟩], red', l', r', by rw [plug_append]; rfl⟩

theorem plug_ne_nil {c : Ctx α} {t : Tree α} (h : t ≠ .nil) : plug c t ≠ .nil := by
  induction c generalizing t with
  | nil => exact h
  | cons f c ih => exact ih (by cases hd : f.dir <;> simp [Frame.attach, Tree.mk, hd])

/-! ## The red-black invariant of a context -/

/-- `c` wants a tree with `n` black nodes on every path, and then yields a red-black tree with a
black top. -/
def RB : ℕ → Ctx α → Prop
  | _, [] => True
  | n, f :: c =>
    f.sibling.RB n ∧
      match f.red with
      | true => f.sibling.isRed = false ∧ c ≠ [] ∧ isRed c = false ∧ RB n c
      | false => RB (n + 1) c

@[simp] theorem RB_nil {n : ℕ} : RB n ([] : Ctx α) := trivial

@[simp] theorem RB_red {n : ℕ} {d : Dir} {x : α} {s : Tree α} {c : Ctx α} :
    RB n (⟨d, true, x, s⟩ :: c) ↔
      s.RB n ∧ s.isRed = false ∧ c ≠ [] ∧ isRed c = false ∧ RB n c := Iff.rfl

@[simp] theorem RB_black {n : ℕ} {d : Dir} {x : α} {s : Tree α} {c : Ctx α} :
    RB n (⟨d, false, x, s⟩ :: c) ↔ s.RB n ∧ RB (n + 1) c := Iff.rfl

/-- **Filling the hole.** -/
theorem RB_plug {n : ℕ} {c : Ctx α} {t : Tree α} (hc : RB n c) (ht : t.RB n)
    (hred : t.isRed = true → isRed c = false) : ∃ m, (plug c t).RB m := by
  induction c generalizing n t with
  | nil => exact ⟨n, ht⟩
  | cons f c ih =>
    obtain ⟨d, red, key, s⟩ := f
    cases red with
    | true =>
      obtain ⟨hs, hsb, -, hcb, hc⟩ := RB_red.1 hc
      have htb : t.isRed = false := by
        cases h : t.isRed with
        | false => rfl
        | true => exact absurd (hred h) (by simp)
      exact ih hc (Tree.RB_mk_red.2 ⟨ht, hs, htb, hsb⟩) (fun _ => hcb)
    | false =>
      obtain ⟨hs, hc⟩ := RB_black.1 hc
      exact ih hc (Tree.RB_mk_black_succ.2 ⟨ht, hs⟩) (by simp [Frame.attach])

/-- The top of a filled context is black, if it is not the filling. -/
theorem isRed_plug {n : ℕ} {c : Ctx α} {t : Tree α} (hc : RB n c)
    (ht : c = [] → t.isRed = false) : (plug c t).isRed = false := by
  induction c generalizing n t with
  | nil => exact ht rfl
  | cons f c ih =>
    obtain ⟨d, red, key, s⟩ := f
    cases red with
    | true => exact ih (RB_red.1 hc).2.2.2.2 (fun h => absurd h (RB_red.1 hc).2.2.1)
    | false => exact ih (RB_black.1 hc).2 (fun _ => by simp [Frame.attach])

/-- **Opening a hole.** -/
theorem RB_of_plug {m : ℕ} {c : Ctx α} {t : Tree α} (h : (plug c t).RB m)
    (hb : (plug c t).isRed = false) :
    ∃ n, t.RB n ∧ RB n c ∧ (t.isRed = true → c ≠ [] ∧ isRed c = false) := by
  induction c generalizing t with
  | nil => exact ⟨m, h, trivial, fun ht => by simp_all⟩
  | cons f c ih =>
    obtain ⟨d, red, key, s⟩ := f
    obtain ⟨n, ht, hc, hred⟩ := ih h hb
    cases red with
    | true =>
      obtain ⟨h1, h2, h3, h4⟩ := Tree.RB_mk_red.1 ht
      have hcb := hred (by simp [Frame.attach])
      exact ⟨n, h1, RB_red.2 ⟨h2, h4, hcb.1, hcb.2, hc⟩, by simp [h3]⟩
    | false =>
      obtain ⟨k, rfl, h1, h2⟩ := Tree.RB_mk_black.1 ht
      exact ⟨k, h1, RB_black.2 ⟨h2, hc⟩, by simp⟩

end Ctx

end Ucore
