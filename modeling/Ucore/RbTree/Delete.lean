import Ucore.RbTree.Walk

/-!
# Deletion from the red-black tree

`rb_delete` works in two stages.

* A node with at most one child is cut out (`At.cutOut`): the node to delete itself, or its
  successor.  In the second case the successor is then put in the place of the node to delete, by
  copying the one node over the other (`At.replace`).  The `parent` field of the child that moves up
  is set even when that child is the `nil` sentinel, and this is the only time the field is read.
* If a black node was cut out, the paths below the place lack one black node.  `Lack` is the state
  of the loop of `rb_delete_fixup`: it either stands at a place whose context wants one black node
  more (`Lacks`), or is done.  A round moves the defect one level up (`fixup_recolour`), or removes
  it (`fixup_rotate`), possibly after turning a red sibling into a black one (`fixup_red_sibling`).

The loop compares with a copy of the top node taken at its start.  A rotation at the top makes that
copy stale, which is why `Lacks` only speaks about it where the node we stand at is black.

## What is here

* `rbDeleteFixupSub_spec` — one round of the loop.  Its cases are those of the sibling: red, black
  with two black children, with a red near child only (`fixup_near`), and with a red far child.  The
  test for the direction has a lemma of its own (`At.eq_child_iff_of_sibling`), because we may stand
  at the `nil` sentinel, which is a child of many nodes.
* `rbDeleteFixup_spec` — the loop, by induction on the context.
* `finish_spec` — what follows the cut: nothing if the node was red, and otherwise the loop.
* `rbDelete_one` and `rbDelete_two` — deletion of a node with at most one child, and with two.
* `rbDelete_spec` and `rbDelete_wellFormed` — the deletion of a node that is known by its address,
  which keeps all other nodes, in their order.
-/

set_option autoImplicit false

namespace Ucore

variable {α : Type}

namespace Ctx

/-- The top of the whole tree, for a tree with top `z` in the hole. -/
def apex (z : α) : Ctx α → α
  | [] => z
  | f :: c => apex f.key c

theorem top_plug (z : α) (c : Ctx α) (t : Tree α) : (c.plug t).top z = c.apex (t.top z) := by
  induction c generalizing t with
  | nil => rfl
  | cons f c ih => rw [plug_cons, ih, Frame.attach, Tree.top_mk, apex]

theorem apex_mem (z : α) (f : Frame α) (c : Ctx α) : apex z (f :: c) ∈ keys (f :: c) := by
  induction c generalizing z f with
  | nil => simp [apex]
  | cons g c ih =>
    rw [apex, keys_cons]
    exact List.mem_cons_of_mem _ (List.mem_append_right _ (ih f.key g))

/-- What fills the hole matters for the top only if there is nothing around the hole. -/
theorem apex_congr {c : Ctx α} (hc : c ≠ []) (z z' : α) : c.apex z = c.apex z' := by
  cases c with
  | nil => exact absurd rfl hc
  | cons f c => rfl

/-- The red-black invariant does not look at labels. -/
theorem RB_rename {n : ℕ} {d : Dir} {red : Bool} {x y : α} {s : Tree α} {c c₂ : Ctx α}
    (h : RB n (c₂ ++ ⟨d, red, x, s⟩ :: c)) : RB n (c₂ ++ ⟨d, red, y, s⟩ :: c) := by
  induction c₂ generalizing n with
  | nil => exact h
  | cons f c₂ ih =>
    obtain ⟨d', red', k, s'⟩ := f
    cases red' with
    | false => exact ⟨h.1, ih h.2⟩
    | true =>
      obtain ⟨h1, h2, -, h4, h5⟩ := RB_red.1 h
      refine RB_red.2 ⟨h1, h2, by simp, ?_, ih h5⟩
      cases c₂ with
      | nil => exact h4
      | cons g c₂ => exact h4

end Ctx

variable [DecidableEq α] {h : RbHeap α} {tree : RbTree α} {c : Ctx α} {t : Tree α}

namespace RbHeap

@[simp] theorem setParent_left (x p q : α) : (h.setParent x p q).left = (h q).left := by
  by_cases hq : q = x
  · subst hq; simp [setParent]
  · simp [setParent, hq]

@[simp] theorem setParent_red (x p q : α) : (h.setParent x p q).red = (h q).red := by
  by_cases hq : q = x
  · subst hq; simp [setParent]
  · simp [setParent, hq]

@[simp] theorem setChild_red (x q y : α) (d : Dir) : (h.setChild x d y q).red = (h q).red := by
  by_cases hq : q = x
  · subst hq; simp [setChild]
  · simp [setChild, hq]

@[simp] theorem setChild_parent (x q y : α) (d : Dir) :
    (h.setChild x d y q).parent = (h q).parent := by
  by_cases hq : q = x
  · subst hq; simp [setChild]
  · simp [setChild, hq]

theorem setParent_of_ne {x p q : α} (hq : q ≠ x) : h.setParent x p q = h q := by
  rw [setParent, Function.update_of_ne hq]

theorem setChild_of_ne {x q y : α} {d : Dir} (hq : q ≠ x) : h.setChild x d y q = h q := by
  rw [setChild, Function.update_of_ne hq]

/-- Painting a black node black. -/
theorem setRed_self {x : α} (hx : (h x).red = false) : h.setRed x false = h := by
  rw [setRed, ← hx]
  exact Function.update_eq_self x h

end RbHeap

/-! ## Cutting a node out -/

/-- The lines `if (x == x->parent->left) ... else ...` redirect the link to where we stand. -/
theorem At.relink (H : At h tree c t) (ht : t ≠ .nil) {h₁ : RbHeap α}
    (hleft : (h₁ (c.parent tree.root)).left = (h (c.parent tree.root)).left) (v : α) :
    (if t.top tree.nil = (h₁ (c.parent tree.root)).left then
      h₁.setChild (c.parent tree.root) .left v
    else h₁.setChild (c.parent tree.root) .right v) = h₁.setChild (c.parent tree.root) c.dir v := by
  have hdir := H.eq_child_iff ht .left
  rw [hleft]
  cases hd : c.dir with
  | left => exact if_pos (hdir.2 hd)
  | right => exact if_neg fun heq => by simp [hdir.1 heq] at hd

/-- A node with at most one child is cut out. -/
theorem At.cutOut {red : Bool} {l r s : Tree α} {z : α} (H : At h tree c (.node red l z r))
    (hs : l = .nil ∧ s = r ∨ r = .nil ∧ s = l) :
    At (rbCutOut h z (s.top tree.nil)) tree c s ∧
      (rbCutOut h z (s.top tree.nil) (s.top tree.nil)).parent = c.parent tree.root ∧
      ∀ q, (rbCutOut h z (s.top tree.nil) q).red = (h q).red := by
  -- the child that moves up is neither the node that goes nor the one above it
  have hsub : s.inorder.Sublist (l.inorder ++ r.inorder) := by
    rcases hs with ⟨rfl, rfl⟩ | ⟨rfl, rfl⟩
    · simp
    · simp
  have hsub' : s.inorder.Sublist (Tree.node red l z r).inorder :=
    hsub.trans ((List.sublist_cons_self z r.inorder).append_left _)
  have hlink : Linked h tree.nil s z := by
    rcases hs with ⟨rfl, rfl⟩ | ⟨rfl, rfl⟩
    · exact H.sub.2.2
    · exact H.sub.2.1
  have hzs : z ∉ s.inorder := by
    have hnd := H.inorder_nodup
    rw [Tree.inorder_node, List.nodup_middle, List.nodup_cons] at hnd
    exact fun hm => hnd.1 (hsub.subset hm)
  have htop : ∀ q, q ≠ tree.nil → q ∉ s.inorder → q ≠ s.top tree.nil := by
    rintro q hqn hqs rfl
    cases s with
    | nil => exact hqn rfl
    | node cs ls xs rs => exact hqs (Tree.top_mem_inorder (by simp))
  have hps : c.parent tree.root ∉ s.inorder := fun hm => H.parent_not_mem (hsub'.subset hm)
  have hpx := htop _ H.parent_ne_nil hps
  have hzx := htop z (H.ne_nil (by simp)) hzs
  have hzp : (h z).parent = c.parent tree.root := by rw [H.sub.1]
  have heq : rbCutOut h z (s.top tree.nil) = (h.setParent (s.top tree.nil)
      (c.parent tree.root)).setChild (c.parent tree.root) c.dir (s.top tree.nil) := by
    rw [rbCutOut]
    simp only [RbHeap.setParent_of_ne hzx, hzp]
    exact H.relink (by simp) (by simp) _
  rw [heq]
  refine ⟨⟨H.ctx.replace H.keys_nodup ?_ fun q hq hqp => ?_, ?_, ?_, ?_⟩, ?_, ?_⟩
  · rw [RbHeap.setChild, Function.update_self, RbHeap.setParent_of_ne hpx]
  · have hnd := H.nodup
    rw [List.nodup_cons, List.nodup_cons] at hnd
    rw [RbHeap.setChild_of_ne hqp, RbHeap.setParent_of_ne]
    refine htop q ?_ fun hm => ?_
    · rintro rfl
      rcases List.mem_cons.1 hq with hr | hk
      · exact H.nil_ne_root hr
      · exact hnd.1 (by simp [hk])
    · rcases List.mem_cons.1 hq with rfl | hk
      · exact H.ne_root (hsub'.subset hm) rfl
      · exact H.not_mem_keys (hsub'.subset hm) hk
  · refine hlink.reparent (H.inorder_nodup.sublist hsub') (fun hne => ?_) fun q hq hqt => ?_
    · rw [RbHeap.setChild_of_ne hpx.symm, RbHeap.setParent, Function.update_self]
    · rw [RbHeap.setChild_of_ne, RbHeap.setParent_of_ne hqt]
      rintro rfl
      exact hps hq
  · exact H.nodup.sublist (((hsub'.append (List.Sublist.refl _)).cons_cons _).cons_cons _)
  · rw [RbHeap.setChild_red, RbHeap.setParent_red]
    exact H.nilBlack
  · rw [RbHeap.setChild_parent, RbHeap.setParent, Function.update_self]
  · intro q
    rw [RbHeap.setChild_red, RbHeap.setParent_red]

/-- The node `y`, which is not in the tree, takes the place of `z`.  If `z` had no right child, the
new owner is written into the `nil` sentinel. -/
theorem At.replace {red : Bool} {l r : Tree α} {z y : α} (H : At h tree c (.node red l z r))
    (hl0 : l ≠ .nil)
    (hy : y ∉ tree.nil :: tree.root :: ((Tree.node red l z r).inorder ++ c.keys)) :
    At (rbReplace h z y) tree c (.node red l y r) ∧
      (rbReplace h z y tree.nil).parent = if r = .nil then y else (h tree.nil).parent := by
  simp only [List.mem_cons, List.mem_append, not_or] at hy
  obtain ⟨hyn, hyr, hyt, hyc⟩ := hy
  obtain ⟨hz, hl, hr⟩ := H.sub
  have hnd := H.inorder_nodup
  rw [Tree.inorder_node, List.nodup_append, List.nodup_cons] at hnd
  obtain ⟨hlnd, ⟨hzr, hrnd⟩, hlr⟩ := hnd
  -- a pointer outside of a subtree is not its top
  have htop : ∀ (s : Tree α) (q : α), q ≠ tree.nil → q ∉ s.inorder → q ≠ s.top tree.nil := by
    rintro s q hqn hqs rfl
    cases s with
    | nil => exact hqn rfl
    | node cs ls xs rs => exact hqs (Tree.top_mem_inorder (by simp))
  have hmem : ∀ q, q ∈ l.inorder ∨ q ∈ r.inorder → q ∈ (Tree.node red l z r).inorder := by
    intro q hq
    rw [Tree.inorder_node, List.mem_append, List.mem_cons]
    tauto
  have hne : ∀ q, q ∈ l.inorder ∨ q ∈ r.inorder →
      q ≠ tree.nil ∧ q ≠ y ∧ q ≠ c.parent tree.root := by
    intro q hq
    refine ⟨H.ne_nil (hmem q hq), ?_, ?_⟩
    · rintro rfl
      exact hyt (hmem q hq)
    · rintro rfl
      exact H.parent_not_mem (hmem _ hq)
  have hzmem : z ∈ (Tree.node red l z r).inorder := by simp
  have hzl : z ≠ l.top tree.nil :=
    htop l z (H.ne_nil hzmem) fun hm => hlr z hm z (by simp) rfl
  have hzr' : z ≠ r.top tree.nil := htop r z (H.ne_nil hzmem) hzr
  have hzp : z ≠ c.parent tree.root := by
    rintro rfl
    exact H.parent_not_mem hzmem
  have hpy : c.parent tree.root ≠ y := by
    rintro rfl
    rcases List.mem_cons.1 (Ctx.parent_mem tree.root c) with heq | hk
    · exact hyr heq
    · exact hyc hk
  have hpl := htop l _ H.parent_ne_nil fun hm => H.parent_not_mem (hmem _ (.inl hm))
  have hpr := htop r _ H.parent_ne_nil fun hm => H.parent_not_mem (hmem _ (.inr hm))
  have hltop := hne _ (.inl (Tree.top_mem_inorder (z := tree.nil) hl0))
  have hlrt : l.top tree.nil ≠ r.top tree.nil := htop r _ hltop.1 fun hm =>
    hlr _ (Tree.top_mem_inorder hl0) _ (List.mem_cons_of_mem _ hm) rfl
  -- the heap, written with the pointers it uses
  have heq : rbReplace h z y = Function.update
      (((h.setChild (c.parent tree.root) c.dir y).setParent (r.top tree.nil) y).setParent
        (l.top tree.nil) y) y (h z) := by
    have hzp' : (h z).parent = c.parent tree.root := by rw [hz]
    have hzl' : (h z).left = l.top tree.nil := by rw [hz]
    have hzr'' : (h z).right = r.top tree.nil := by rw [hz]
    have hlink := H.relink (by simp) rfl y
    rw [Tree.top_node] at hlink
    rw [rbReplace]
    simp only [hzp', hlink, RbHeap.setChild_of_ne hzp, hzr'', RbHeap.setParent_of_ne hzr', hzl',
      RbHeap.setParent_of_ne hzl]
  rw [heq]
  have hframe : ∀ q, q ≠ y → q ≠ c.parent tree.root → q ≠ l.top tree.nil → q ≠ r.top tree.nil →
      Function.update (((h.setChild (c.parent tree.root) c.dir y).setParent (r.top tree.nil)
        y).setParent (l.top tree.nil) y) y (h z) q = h q := by
    intro q h1 h2 h3 h4
    rw [Function.update_of_ne h1, RbHeap.setParent_of_ne h3, RbHeap.setParent_of_ne h4,
      RbHeap.setChild_of_ne h2]
  refine ⟨⟨H.ctx.replace H.keys_nodup ?_ fun q hq hqp => ?_, ⟨?_, ?_, ?_⟩, ?_, ?_⟩, ?_⟩
  · rw [Function.update_of_ne hpy, RbHeap.setParent_of_ne hpl, RbHeap.setParent_of_ne hpr,
      RbHeap.setChild, Function.update_self, Tree.top_node]
  · have hqt : q ∉ (Tree.node red l z r).inorder := by
      intro hqt
      rcases List.mem_cons.1 hq with rfl | hk
      · exact H.ne_root hqt rfl
      · exact H.not_mem_keys hqt hk
    have hqn : q ≠ tree.nil := by
      have hnd := (List.nodup_cons.1 H.nodup).1
      rintro rfl
      rcases List.mem_cons.1 hq with heq | hk
      · exact H.nil_ne_root heq
      · exact hnd (by simp [hk])
    refine hframe q ?_ hqp (htop l q hqn fun hm => hqt (hmem q (.inl hm)))
      (htop r q hqn fun hm => hqt (hmem q (.inr hm)))
    rintro rfl
    rcases List.mem_cons.1 hq with heq | hk
    · exact hyr heq
    · exact hyc hk
  · rw [Function.update_self, hz]
  · refine hl.reparent hlnd (fun _ => ?_) fun q hq hqt => ?_
    · rw [Function.update_of_ne hltop.2.1, RbHeap.setParent, Function.update_self,
        RbHeap.setParent_of_ne hlrt, RbHeap.setChild_of_ne hltop.2.2]
    · obtain ⟨h1, h2, h3⟩ := hne q (.inl hq)
      exact hframe q h2 h3 hqt (htop r q h1 fun hm => hlr q hq q (by simp [hm]) rfl)
  · refine hr.reparent hrnd (fun hr0 => ?_) fun q hq hqt => ?_
    · have hrtop := hne _ (.inr (Tree.top_mem_inorder (z := tree.nil) hr0))
      rw [Function.update_of_ne hrtop.2.1, RbHeap.setParent_of_ne hlrt.symm, RbHeap.setParent,
        Function.update_self, RbHeap.setChild_of_ne hrtop.2.2]
    · obtain ⟨h1, h2, h3⟩ := hne q (.inr hq)
      exact hframe q h2 h3 (htop l q h1 fun hm => hlr q hm q (by simp [hq]) rfl) hqt
  · have hnd := H.nodup
    simp only [Tree.inorder_node, List.nodup_cons, List.nodup_append, List.mem_append,
      List.mem_cons, not_or] at hnd hyt ⊢
    grind
  · rw [Function.update_of_ne (Ne.symm hyn), RbHeap.setParent_red, RbHeap.setParent_red,
      RbHeap.setChild_red]
    exact H.nilBlack
  · rw [Function.update_of_ne (Ne.symm hyn), RbHeap.setParent_of_ne hltop.1.symm]
    split
    · rename_i hr0
      rw [hr0, Tree.top_nil, RbHeap.setParent, Function.update_self]
    · rename_i hr0
      have hrtop := hne _ (.inr (Tree.top_mem_inorder (z := tree.nil) hr0))
      rw [RbHeap.setParent_of_ne hrtop.1.symm, RbHeap.setChild_parent]

/-! ## The loop of `rb_delete_fixup` -/

/-- We stand at `t`, whose context wants `k + 1` black nodes on every path.  A black `t` has only
`k` of them; a red one has `k + 1` as soon as it is painted black.  The pointer `x` we hold knows
the node above it even if it is `nil`. -/
structure Lacks (tree : RbTree α) (h : RbHeap α) (x : α) (c : Ctx α) (t : Tree α) (k : ℕ) :
    Prop where
  here : At h tree c t
  ptr : x = t.top tree.nil
  up : (h x).parent = c.parent tree.root
  wants : c.RB (k + 1)
  has : if t.isRed then (t.paint false).RB (k + 1) else t.RB k

omit [DecidableEq α] in
theorem Lacks.red_eq {x : α} {k : ℕ} (H : Lacks tree h x c t k) : (h x).red = t.isRed := by
  rw [H.ptr]
  exact H.here.red_top

omit [DecidableEq α] in
/-- Below a node with two children, the test `x == x->parent->e` finds the direction of `x`, also
for the `nil` sentinel. -/
theorem At.eq_child_iff_of_sibling {f : Frame α} (H : At h tree (f :: c) t)
    (hs : f.sibling ≠ .nil) (e : Dir) : t.top tree.nil = (h f.key).child e ↔ f.dir = e := by
  by_cases ht : t = .nil
  · subst ht
    have hmem : f.sibling.top tree.nil ∈ f.sibling.inorder := Tree.top_mem_inorder hs
    have hne : f.sibling.top tree.nil ≠ tree.nil := by
      have hnd := (List.nodup_cons.1 H.nodup).1
      intro heq
      rw [heq] at hmem
      exact hnd (by simp [hmem])
    constructor
    · intro heq
      by_contra hd
      rw [← Dir.other_other e, ← Dir.eq_other_of_ne hd, H.ctx.1, RbNode.of_child_other] at heq
      exact hne heq.symm
    · rintro rfl
      rw [H.ctx.1, RbNode.of_child]
  · exact H.eq_child_iff ht e

omit [DecidableEq α] in
/-- The near and the far child of the sibling, seen from where we stand. -/
theorem At.red_nephew {d : Dir} {cp cs : Bool} {p w : α} {a b : Tree α}
    (H : At h tree (⟨d, cp, p, .mk d cs a w b⟩ :: c) t) :
    (h p).child d.other = w ∧ (h w).red = cs ∧ (h w).child d = a.top tree.nil ∧
      (h w).child d.other = b.top tree.nil ∧ (h (a.top tree.nil)).red = a.isRed ∧
      (h (b.top tree.nil)).red = b.isRed := by
  have H₁ : At h tree (⟨d.other, cp, p, t⟩ :: c) (.mk d cs a w b) := by
    rw [At.cons_iff, Frame.attach, Tree.mk_other]
    exact At.cons_iff.1 H
  have hp : h p = _ := H.ctx.1
  refine ⟨by rw [hp, RbNode.of_child_other, Tree.top_mk], by rw [H₁.node_eq, RbNode.of_red],
    by rw [H₁.node_eq, RbNode.of_child], by rw [H₁.node_eq, RbNode.of_child_other], ?_, ?_⟩
  · exact (At.cons_iff (f := ⟨d, cs, w, b⟩).2 H₁).red_top
  · have H₂ : At h tree (⟨d.other, cs, w, a⟩ :: ⟨d.other, cp, p, t⟩ :: c) b := by
      rw [At.cons_iff, Frame.attach, Tree.mk_other]
      exact H₁
    exact H₂.red_top

/-- The pointer to the node above, kept by changes that do not touch `nil`. -/
theorem Lacks.up_of {x : α} {k : ℕ} {h' : RbHeap α} {c' : Ctx α} (H : Lacks tree h x c t k)
    (H' : At h' tree c' t) (hnil : h' tree.nil = h tree.nil)
    (hp : c'.parent tree.root = c.parent tree.root) : (h' x).parent = c'.parent tree.root := by
  by_cases ht : t = .nil
  · have hx : x = tree.nil := by rw [H.ptr, ht, Tree.top_nil]
    rw [hx, hnil, hp, ← H.up, hx]
  · rw [H.ptr]
    exact H'.parent_top ht

section Cases

variable {x p w : α} {k : ℕ} {d : Dir} {cp : Bool} {a b : Tree α}

/-- A red sibling: after the rotation the place has a black one, and a red node above it. -/
theorem fixup_red_sibling (H : Lacks tree h x (⟨d, cp, p, .mk d true a w b⟩ :: c) t k) :
    ∃ h', rbRotate tree d ((h.setRed w false).setRed p true) p = .ok h' ∧
      Lacks tree h' x (⟨d, true, p, a⟩ :: ⟨d, false, w, b⟩ :: c) t k ∧ a.isRed = false ∧
      (Ctx.plug (⟨d, true, p, a⟩ :: ⟨d, false, w, b⟩ :: c) t).inorder =
        (Ctx.plug (⟨d, cp, p, .mk d true a w b⟩ :: c) t).inorder := by
  obtain rfl : cp = false := by
    cases cp with
    | false => rfl
    | true => exact absurd H.wants.2.1 (by simp)
  obtain ⟨hs, hc⟩ := H.wants
  obtain ⟨ha, hbb, hab, hbb'⟩ := Tree.RB_mk_red.1 hs
  have H₁ := H.here.setRed_sibling false
  have H₂ := At.cons_iff.1 (H₁.setRed_above true)
  obtain ⟨h', hrot, H₃, hnil, -⟩ := H₂.rotate
  have H₄ : At h' tree (⟨d, true, p, a⟩ :: ⟨d, false, w, b⟩ :: c) t :=
    At.cons_iff.2 (At.cons_iff.2 H₃)
  have hwn : tree.nil ≠ w := by
    have hm : w ∈ Ctx.keys (⟨d, false, p, .mk d true a w b⟩ :: c) := by
      simp [(Tree.inorder_mk_perm d true a w b).mem_iff]
    have hnd := (List.nodup_cons.1 H.here.nodup).1
    rintro heq
    rw [heq] at hnd
    exact hnd (List.mem_cons_of_mem _ (List.mem_append_right _ hm))
  have hpn : tree.nil ≠ p := H.here.parent_ne_nil.symm
  have hnil' : h' tree.nil = h tree.nil := by
    rw [hnil, RbHeap.setRed_of_ne _ _ hpn, RbHeap.setRed_of_ne _ _ hwn]
  refine ⟨h', hrot, ⟨H₄, H.ptr, H.up_of H₄ hnil' rfl, ?_, H.has⟩, hab, ?_⟩
  · exact ⟨ha, hab, by simp, rfl, hbb, hc⟩
  · rw [Ctx.plug_cons, Ctx.plug_cons, Ctx.plug_cons]
    exact Ctx.inorder_plug_congr c (Tree.inorder_rotate d _ _ _ _ t a b p w).symm

/-- A black sibling with black children: painted red it lacks a black node as well, and the defect
moves up. -/
theorem fixup_recolour (H : Lacks tree h x (⟨d, cp, p, .mk d false a w b⟩ :: c) t k)
    (hb : t.isRed = false) (ha : a.isRed = false) (hbb : b.isRed = false) :
    ∃ t', Lacks tree (h.setRed w true) p c t' (if cp then k else k + 1) ∧ t'.isRed = cp ∧
      (c.plug t').inorder = (Ctx.plug (⟨d, cp, p, .mk d false a w b⟩ :: c) t).inorder := by
  have H₁ := At.cons_iff.1 (H.here.setRed_sibling true)
  have htk : t.RB k := by
    have := H.has
    rwa [hb] at this
  obtain ⟨hak, hbk⟩ : a.RB k ∧ b.RB k := by
    have := H.wants.1
    exact Tree.RB_mk_black_succ.1 this
  have hne : Tree.mk d cp t p (.mk d true a w b) ≠ .nil := by cases d <;> simp [Tree.mk]
  refine ⟨_, ⟨H₁, by rw [Frame.attach, Tree.top_mk], ?_, ?_, ?_⟩, by simp [Frame.attach], ?_⟩
  · have := H₁.parent_top hne
    rwa [Frame.attach, Tree.top_mk] at this
  · cases cp with
    | true => exact H.wants.2.2.2.2
    | false => exact H.wants.2
  · simp only [Frame.attach, Tree.isRed_mk, Tree.paint_mk]
    cases cp with
    | true =>
      exact Tree.RB_mk_black_succ.2 ⟨htk, Tree.RB_mk_red.2 ⟨hak, hbk, ha, hbb⟩⟩
    | false =>
      exact Tree.RB_mk_black_succ.2 ⟨htk, Tree.RB_mk_red.2 ⟨hak, hbk, ha, hbb⟩⟩
  · rw [Ctx.plug_cons]
    exact Ctx.inorder_plug_congr c (Tree.inorder_mk_congr rfl (Tree.inorder_mk_congr rfl rfl))

/-- A black sibling whose near child is red and whose far child is black: after a rotation at the
sibling, the far child is red. -/
theorem fixup_near (H : Lacks tree h x (⟨d, cp, p, .mk d false a w b⟩ :: c) t k)
    (ha : a.isRed = true) (hbb : b.isRed = false) :
    ∃ (h' : RbHeap α) (v : α) (a₁ a₂ : Tree α),
      rbRotate tree d.other ((h.setRed (a.top tree.nil) false).setRed w true) w = .ok h' ∧
      Lacks tree h' x (⟨d, cp, p, .mk d false a₁ v (.mk d true a₂ w b)⟩ :: c) t k ∧
      (Ctx.plug (⟨d, cp, p, .mk d false a₁ v (.mk d true a₂ w b)⟩ :: c) t).inorder =
        (Ctx.plug (⟨d, cp, p, .mk d false a w b⟩ :: c) t).inorder := by
  obtain ⟨a₁, v, a₂, rfl⟩ : ∃ a₁ v a₂, a = .mk d true a₁ v a₂ := by
    cases a with
    | nil => simp at ha
    | node ca l v r =>
      obtain rfl : ca = true := ha
      obtain ⟨a₁, a₂, h₁₂⟩ := Tree.exists_mk d true l v r
      exact ⟨a₁, v, a₂, h₁₂⟩
  rw [Tree.top_mk]
  -- stand at the sibling, recolour and rotate there
  have Hw : At h tree (⟨d.other, cp, p, t⟩ :: c) (.mk d false (.mk d true a₁ v a₂) w b) := by
    rw [At.cons_iff, Frame.attach, Tree.mk_other]
    exact At.cons_iff.1 H.here
  have H₁ := (At.cons_iff (f := ⟨d, false, w, b⟩).2 Hw).setRed false
  have H₂ := At.cons_iff.1 (H₁.setRed_above true)
  simp only [Frame.attach] at H₂
  rw [← Tree.mk_other d true, ← Tree.mk_other d false] at H₂
  obtain ⟨h', hrot, H₃, hnil, -⟩ := H₂.rotate
  rw [Tree.mk_other d false, Tree.mk_other d true, At.cons_iff, Frame.attach, Tree.mk_other] at H₃
  have H₄ : At h' tree (⟨d, cp, p, .mk d false a₁ v (.mk d true a₂ w b)⟩ :: c) t :=
    At.cons_iff.2 H₃
  have hvn : tree.nil ≠ v := by
    have hm := (At.cons_iff (f := ⟨d, false, w, b⟩).2 Hw).ne_nil (x := v)
      ((Tree.inorder_mk_perm d true a₁ v a₂).mem_iff.2 (by simp))
    exact hm.symm
  have hwn : tree.nil ≠ w :=
    (Hw.ne_nil ((Tree.inorder_mk_perm d false _ w b).mem_iff.2 (by simp))).symm
  have hnil' : h' tree.nil = h tree.nil := by
    rw [hnil, RbHeap.setRed_of_ne _ _ hwn, RbHeap.setRed_of_ne _ _ hvn]
  have hRB : ∀ n, (Tree.mk d false (.mk d true a₁ v a₂) w b).RB n →
      (Tree.mk d false a₁ v (.mk d true a₂ w b)).RB n := by
    intro n hn
    obtain ⟨m, rfl, h1, h2⟩ := Tree.RB_mk_black.1 hn
    obtain ⟨h3, h4, h5, h6⟩ := Tree.RB_mk_red.1 h1
    exact Tree.RB_mk_black_succ.2 ⟨h3, Tree.RB_mk_red.2 ⟨h4, h2, h6, hbb⟩⟩
  refine ⟨h', v, a₁, a₂, hrot, ⟨H₄, H.ptr, H.up_of H₄ hnil' rfl, ?_, H.has⟩, ?_⟩
  · have hw := H.wants
    cases cp with
    | true => exact ⟨hRB _ hw.1, by simp, hw.2.2⟩
    | false => exact ⟨hRB _ hw.1, hw.2⟩
  · rw [Ctx.plug_cons, Ctx.plug_cons]
    refine Ctx.inorder_plug_congr c (Tree.inorder_mk_congr rfl ?_)
    exact Tree.inorder_rotate d _ _ _ _ a₁ a₂ b v w

/-- A black sibling whose far child is red: a rotation supplies the missing black node. -/
theorem fixup_rotate (H : Lacks tree h x (⟨d, cp, p, .mk d false a w b⟩ :: c) t k)
    (hb : t.isRed = false) (hbr : b.isRed = true) :
    ∃ (h' : RbHeap α) (t' : Tree α) (m : ℕ),
      rbRotate tree d (((h.setRed w cp).setRed p false).setRed (b.top tree.nil) false) p = .ok h' ∧
      At h' tree c (.mk d cp (.mk d false t p a) w (b.paint false)) ∧
      t' = c.plug (.mk d cp (.mk d false t p a) w (b.paint false)) ∧ t'.RB m ∧ t'.isRed = false ∧
      t'.inorder = (Ctx.plug (⟨d, cp, p, .mk d false a w b⟩ :: c) t).inorder := by
  have htk : t.RB k := by
    have := H.has
    rwa [hb] at this
  obtain ⟨hak, hbk⟩ : a.RB k ∧ b.RB k := Tree.RB_mk_black_succ.1 H.wants.1
  obtain ⟨b₁, v, b₂, rfl⟩ : ∃ b₁ v b₂, b = .mk d true b₁ v b₂ := by
    cases b with
    | nil => simp at hbr
    | node cb l v r =>
      obtain rfl : cb = true := hbr
      obtain ⟨b₁, b₂, h₁₂⟩ := Tree.exists_mk d true l v r
      exact ⟨b₁, v, b₂, h₁₂⟩
  rw [Tree.top_mk, Tree.paint_mk]
  have H₁ := (H.here.setRed_sibling cp).setRed_above false
  -- go to the far child, paint it, and come back
  have Hw : At ((h.setRed w cp).setRed p false) tree (⟨d.other, false, p, t⟩ :: c)
      (.mk d cp a w (.mk d true b₁ v b₂)) := by
    rw [At.cons_iff, Frame.attach, Tree.mk_other]
    exact At.cons_iff.1 H₁
  have Hv : At ((h.setRed w cp).setRed p false) tree
      (⟨d.other, cp, w, a⟩ :: ⟨d.other, false, p, t⟩ :: c) (.mk d true b₁ v b₂) := by
    rw [At.cons_iff, Frame.attach, Tree.mk_other]
    exact Hw
  have H₂ := At.cons_iff.1 (At.cons_iff.1 (Hv.setRed false))
  simp only [Frame.attach, Tree.mk_other] at H₂
  obtain ⟨h', hrot, H₃, -, -⟩ := H₂.rotate
  have hcond : ∃ n, (Tree.mk d cp (.mk d false t p a) w (.mk d false b₁ v b₂)).RB n ∧ c.RB n ∧
      (cp = true → c.isRed = false) ∧ (c = [] → cp = false) := by
    have hw := H.wants
    obtain ⟨hb₁, hb₂, -⟩ := Tree.RB_mk_red.1 hbk
    cases cp with
    | true =>
      refine ⟨k + 1, Tree.RB_mk_red.2 ⟨Tree.RB_mk_black_succ.2 ⟨htk, hak⟩,
        Tree.RB_mk_black_succ.2 ⟨hb₁, hb₂⟩, by simp, by simp⟩, hw.2.2.2.2, fun _ => hw.2.2.2.1,
        fun hc => absurd hc hw.2.2.1⟩
    | false =>
      refine ⟨k + 2, Tree.RB_mk_black_succ.2 ⟨Tree.RB_mk_black_succ.2 ⟨htk, hak⟩,
        Tree.RB_mk_black_succ.2 ⟨hb₁, hb₂⟩⟩, hw.2, by simp, by simp⟩
  obtain ⟨n, hn, hcn, hred, htop⟩ := hcond
  obtain ⟨m, hm⟩ := Ctx.RB_plug hcn hn (by simpa using hred)
  refine ⟨h', _, m, hrot, H₃, rfl, hm, ?_, ?_⟩
  · exact Ctx.isRed_plug hcn fun hc => by simpa using htop hc
  · rw [Ctx.plug_cons]
    refine Ctx.inorder_plug_congr c ?_
    rw [← Tree.inorder_rotate d cp false]
    exact Tree.inorder_mk_congr rfl (Tree.inorder_mk_congr rfl (Tree.inorder_mk_congr rfl rfl))

end Cases

/-- The state of the loop: the tree lacks a black node at the place where we stand, or it is
complete and the loop is about to stop.  It also stops at a red node, whatever lies above it. -/
def Lack (tree : RbTree α) (root : α) (L : List α) (n : ℕ) (s : RbHeap α × α) : Prop :=
  (∃ (c : Ctx α) (t : Tree α) (k : ℕ), Lacks tree s.1 s.2 c t k ∧
    (if t.isRed then 0 else c.length) = n ∧ (c.plug t).inorder = L ∧
    (t.isRed = false → root = c.apex s.2)) ∨
  ∃ (t : Tree α) (m : ℕ), At s.1 tree [] t ∧ t.RB m ∧ t.isRed = false ∧ t.inorder = L ∧
    s.2 = root ∧ (s.1 root).red = false

theorem rbDeleteFixupBlack_spec {L : List α} {x p w root : α} {k : ℕ} {d : Dir} {cp : Bool}
    {a b : Tree α} (H : Lacks tree h x (⟨d, cp, p, .mk d false a w b⟩ :: c) t k)
    (hb : t.isRed = false) (hroot : root = p ∨ root = c.apex p)
    (hred : cp = true ∨ root = c.apex p)
    (hL : (Ctx.plug (⟨d, cp, p, .mk d false a w b⟩ :: c) t).inorder = L) :
    ∃ s' m, rbDeleteFixupBlack tree d root h x w = .ok s' ∧ Lack tree root L m s' ∧
      m ≤ if cp then 0 else c.length := by
  have hxp : (h x).parent = p := H.up
  -- the last case, which the one before it leads to
  have hlast : ∀ {h : RbHeap α} {w : α} {a b : Tree α},
      Lacks tree h x (⟨d, cp, p, .mk d false a w b⟩ :: c) t k → b.isRed = true →
      (Ctx.plug (⟨d, cp, p, .mk d false a w b⟩ :: c) t).inorder = L →
      ∃ h', rbRotate tree d (((h.setRed w cp).setRed p false).setRed (b.top tree.nil) false) p
        = .ok h' ∧ Lack tree root L 0 (h', root) := by
    intro h w a b H hbr hL
    obtain ⟨h', t', m, hrot, H', rfl, hm, htop, hord⟩ := fixup_rotate H hb hbr
    refine ⟨h', hrot, .inr ⟨_, m, At.root_iff.1 H', hm, htop, hord.trans hL, rfl, ?_⟩⟩
    -- the copy of the top is `p`, now black, or still the top
    have hpred : (h' p).red = false := by
      have H₁ := At.cons_iff (f := ⟨d, cp, w, b.paint false⟩).2 H'
      rw [H₁.node_eq, RbNode.of_red]
    by_cases hc : c = []
    · subst hc
      rcases hroot with rfl | rfl
      · exact hpred
      · exact hpred
    · rcases hroot with rfl | rfl
      · exact hpred
      · have h1 := (At.root_iff.1 H').red_top
        rw [Ctx.top_plug, htop] at h1
        rw [Ctx.apex_congr hc p]
        exact h1
  obtain ⟨hw, -, hwa, hwb, hra, hrb⟩ := H.here.red_nephew
  simp only [rbDeleteFixupBlack, hwa, hwb, hra, hrb]
  by_cases hboth : a.isRed = false ∧ b.isRed = false
  · obtain ⟨t', H', ht', hord⟩ := fixup_recolour H hb hboth.1 hboth.2
    refine ⟨(h.setRed w true, p), _, ?_, .inl ⟨c, t', _, H', rfl, hord.trans hL, ?_⟩, by rw [ht']⟩
    · rw [if_pos hboth, RbHeap.setRed_parent, hxp]
      rfl
    · rw [ht']
      rintro rfl
      exact hred.resolve_left (by simp)
  · rw [if_neg hboth]
    by_cases hbr : b.isRed = false
    · have har : a.isRed = true := by
        cases ha : a.isRed with
        | true => rfl
        | false => exact absurd ⟨ha, hbr⟩ hboth
      obtain ⟨h₁, v, a₁, a₂, hrot₁, H₁, hord₁⟩ := fixup_near H har hbr
      obtain ⟨h', hrot, hdone⟩ := hlast H₁ (by simp) (hord₁.trans hL)
      have hxp₁ : (h₁ x).parent = p := H₁.up
      obtain ⟨hv, -, -, hvb, -, -⟩ := H₁.here.red_nephew
      have hpred : (h₁ p).red = cp := H₁.here.red_parent
      rw [Tree.top_mk] at hrot hvb
      refine ⟨(h', root), 0, ?_, hdone, Nat.zero_le _⟩
      simp [hbr, hrot₁, hxp₁, hv, hpred, hvb, hrot]
    · have hbr' : b.isRed = true := by simpa using hbr
      obtain ⟨h', hrot, hdone⟩ := hlast H hbr' hL
      have hpred : (h p).red = cp := H.here.red_parent
      refine ⟨(h', root), 0, ?_, hdone, Nat.zero_le _⟩
      simp [hbr', hxp, hpred, hwb, hrot]

/-- **One round of the loop.** -/
theorem rbDeleteFixupSub_spec {L : List α} {x root : α} {k : ℕ} {f : Frame α}
    (H : Lacks tree h x (f :: c) t k) (hb : t.isRed = false) (hroot : root = c.apex f.key)
    (hL : (Ctx.plug (f :: c) t).inorder = L) :
    ∃ s' m, rbDeleteFixupSub tree f.dir root h x = .ok s' ∧ Lack tree root L m s' ∧
      m ≤ c.length := by
  obtain ⟨d, cp, p, s⟩ := f
  dsimp only at hroot ⊢
  -- the paths on the other side have a black node, so there is a sibling
  obtain ⟨cs, a, w, b, rfl⟩ := Tree.RB.exists_mk d (n := k) (t := s) (by
    cases cp with
    | true => exact H.wants.1
    | false => exact H.wants.1)
  obtain ⟨hw, hwr, -⟩ := H.here.red_nephew
  have hxp : (h x).parent = p := H.up
  rw [rbDeleteFixupSub]
  simp only [hxp, hw, hwr]
  cases cs with
  | true =>
    obtain ⟨h', hrot, H', hab, hord⟩ := fixup_red_sibling H
    -- the near child of the sibling is the new, black, sibling
    obtain ⟨ca, a₁, v, a₂, rfl⟩ := Tree.RB.exists_mk d (n := k) H'.wants.1
    obtain rfl : ca = false := by simpa using hab
    have hroot' : root = p ∨ root = Ctx.apex p (⟨d, false, w, b⟩ :: c) := by
      by_cases hc : c = []
      · subst hc
        exact .inl hroot
      · refine .inr ?_
        rw [hroot, Ctx.apex]
        exact Ctx.apex_congr hc p w
    obtain ⟨s', m, hrun, hs', hm⟩ :=
      rbDeleteFixupBlack_spec H' hb hroot' (.inl rfl) (hord.trans hL)
    refine ⟨s', m, ?_, hs', by simp at hm; omega⟩
    have hxp' : (h' x).parent = p := H'.up
    obtain ⟨hv, -⟩ := H'.here.red_nephew
    rw [if_pos rfl]
    simp only [RbHeap.setRed_parent, hxp, hrot, Res.ok_bind, hxp', hv, hrun]
  | false =>
    obtain ⟨s', m, hrun, hs', hm⟩ := rbDeleteFixupBlack_spec H hb (.inr hroot) (.inr hroot) hL
    refine ⟨s', m, ?_, hs', hm.trans ?_⟩
    · rw [if_neg (by simp), hrun]
    · split <;> omega

/-- **`rb_delete_fixup`** supplies the missing black node. -/
theorem rbDeleteFixup_spec {x : α} {k : ℕ} (H : Lacks tree h x c t k) {fuel : ℕ}
    (hfuel : c.length ≤ fuel) :
    ∃ (h' : RbHeap α) (t' : Tree α) (m : ℕ), rbDeleteFixup fuel tree h x = .ok h' ∧
      At h' tree [] t' ∧ t'.RB m ∧ t'.isRed = false ∧ t'.inorder = (c.plug t).inorder := by
  set root := (h tree.root).left with hroot
  have hapex : root = c.apex x := by
    rw [hroot, (At.root_iff.1 H.here).ctx.1, Ctx.top_plug, H.ptr]
  obtain ⟨⟨h', x'⟩, m, hrun, hinv, hguard⟩ := whileLoop_total
    (c := fun s : RbHeap α × α => decide (s.2 ≠ root ∧ (s.1 s.2).red = false))
    (f := fun s =>
      if s.2 = (s.1 (s.1 s.2).parent).left then rbDeleteFixupSub tree .left root s.1 s.2
      else rbDeleteFixupSub tree .right root s.1 s.2)
    (Lack tree root (c.plug t).inorder)
    (by
      rintro n ⟨h, x⟩ hinv hguard
      rw [decide_eq_true_iff] at hguard
      rcases hinv with ⟨c, t, k, H, rfl, hL, hap⟩ | ⟨t, m, -, -, -, -, hx, -⟩
      · have hb : t.isRed = false := H.red_eq ▸ hguard.2
        have hap := hap hb
        cases c with
        | nil => exact absurd hap.symm hguard.1
        | cons f c =>
          have hs : f.sibling ≠ .nil := by
            intro hs
            have hw := H.wants.1
            rw [hs] at hw
            simp at hw
          have hxp : (h x).parent = f.key := H.up
          have htest : x = (h f.key).left ↔ f.dir = .left := by
            have h1 := H.here.eq_child_iff_of_sibling hs .left
            rwa [← H.ptr] at h1
          obtain ⟨s', m, hrun, hs', hm⟩ := rbDeleteFixupSub_spec H hb hap hL
          refine ⟨s', m, ?_, hs', by rw [hb]; simp; omega⟩
          dsimp only at hxp ⊢
          rw [hxp]
          cases hd : f.dir with
          | left => rw [if_pos (htest.2 hd), ← hd, hrun]
          | right =>
            rw [if_neg fun heq => by simp [htest.1 heq] at hd, ← hd, hrun]
      · exact absurd hx hguard.1)
    fuel _ (h, x) (.inl ⟨c, t, k, H, rfl, rfl, fun _ => hapex⟩) (by split <;> omega)
  have hfix : rbDeleteFixup fuel tree h x = .ok (h'.setRed x' false) := by
    simp only [rbDeleteFixup, ← hroot, hrun]
    rfl
  rw [decide_eq_false_iff_not, not_and_or, not_not] at hguard
  rcases hinv with ⟨c, t, k, H, -, hL, hap⟩ | ⟨t, m, Ht, hm, hb, hL, hx, hred⟩
  · dsimp only at H hL hap hguard
    cases hr : t.isRed with
    | true =>
      -- stopped at a red node: painted black it supplies what was missing
      cases t with
      | nil => simp at hr
      | node ct l y r =>
        have hx' : x' = y := H.ptr
        subst hx'
        have hhas := H.has
        rw [if_pos hr, Tree.paint_node] at hhas
        have H' := H.here.setRed (d := .left) false
        obtain ⟨m, hm⟩ := Ctx.RB_plug H.wants hhas (by simp)
        refine ⟨_, _, m, hfix, At.root_iff.1 H', hm, Ctx.isRed_plug H.wants fun _ => rfl, ?_⟩
        rw [← hL]
        exact Ctx.inorder_plug_congr c rfl
    | false =>
      -- stopped at the top, where one black node less does not matter
      have hx : x' = root := hguard.resolve_right fun h => h (by rw [H.red_eq, hr])
      have hc : c = [] := by
        cases c with
        | nil => rfl
        | cons f c =>
          have hmem := Ctx.apex_mem x' f c
          rw [← hap hr, ← hx, H.ptr] at hmem
          exfalso
          cases t with
          | nil =>
            have hnd := (List.nodup_cons.1 H.here.nodup).1
            exact hnd (List.mem_cons_of_mem _ (List.mem_append_right _ hmem))
          | node ct l y r => exact H.here.not_mem_keys (Tree.top_mem_inorder (by simp)) hmem
      subst hc
      have hhas := H.has
      rw [hr, if_neg (by simp)] at hhas
      refine ⟨_, t, k, hfix, ?_, hhas, hr, hL⟩
      rw [RbHeap.setRed_self (by rw [H.red_eq, hr])]
      exact H.here
  · dsimp only at hx hred Ht
    subst hx
    refine ⟨_, t, m, hfix, ?_, hm, hb, hL⟩
    rw [RbHeap.setRed_self hred]
    exact Ht

/-! ## The whole deletion -/

/-- What `rb_delete` does with the place it has cut a node out of: `cy` is the colour of that
node. -/
theorem finish_spec {x : α} {cy : Bool} {l y r : _} {s : Tree α} {m : ℕ} {fuel : ℕ}
    (H : At h tree c s) (hx : x = s.top tree.nil) (hup : (h x).parent = c.parent tree.root)
    (hRB : (Tree.node cy l y r : Tree α).RB m) (hc : c.RB m)
    (hs : l = .nil ∧ s = r ∨ r = .nil ∧ s = l)
    (htop : cy = true → c ≠ []) (hfuel : c.length ≤ fuel) :
    ∃ (h' : RbHeap α) (t' : Tree α) (n : ℕ),
      (if (!cy) = true then rbDeleteFixup fuel tree h x else .ok h) = .ok h' ∧
      At h' tree [] t' ∧ t'.RB n ∧ t'.isRed = false ∧ t'.inorder = (c.plug s).inorder := by
  cases cy with
  | true =>
    -- a red node had a black child, if any, and nothing is missing
    obtain ⟨hl, hr, hlb, hrb⟩ := Tree.RB_red.1 hRB
    obtain ⟨hsm, hsb⟩ : s.RB m ∧ s.isRed = false := by
      rcases hs with ⟨-, rfl⟩ | ⟨-, rfl⟩
      · exact ⟨hr, hrb⟩
      · exact ⟨hl, hlb⟩
    obtain ⟨n, hn⟩ := Ctx.RB_plug hc hsm (by simp [hsb])
    exact ⟨h, _, n, rfl, At.root_iff.1 H, hn, Ctx.isRed_plug hc fun h => absurd h (htop rfl), rfl⟩
  | false =>
    obtain ⟨k, rfl, hl, hr⟩ := Tree.RB_black.1 hRB
    have hsk : s.RB k := by
      rcases hs with ⟨-, rfl⟩ | ⟨-, rfl⟩
      · exact hr
      · exact hl
    refine rbDeleteFixup_spec (k := k) ⟨H, hx, hup, hc, ?_⟩ hfuel
    split
    · exact hsk.paint_black ‹_›
    · exact hsk

omit [DecidableEq α] in
theorem At.top_eq_nil_iff (H : At h tree c t) : t.top tree.nil = tree.nil ↔ t = .nil := by
  constructor
  · intro heq
    by_contra hne
    exact H.ne_nil (Tree.top_mem_inorder hne) heq
  · rintro rfl
    rfl

section Delete

variable {z : α} {cz : Bool} {l r : Tree α} {m : ℕ} {fuel : ℕ}

/-- `rb_delete` of a node that has at most one child. -/
theorem rbDelete_one (H : At h tree c (.node cz l z r)) (hm : (c.plug (.node cz l z r)).RB m)
    (hb : (c.plug (.node cz l z r)).isRed = false) (hone : l = .nil ∨ r = .nil)
    (hfuel : c.length ≤ fuel) :
    ∃ (h' : RbHeap α) (t' : Tree α) (n : ℕ), rbDelete fuel tree h z = .ok h' ∧
      At h' tree [] t' ∧ t'.RB n ∧ t'.isRed = false ∧
      t'.inorder = c.before ++ (l.inorder ++ r.inorder) ++ c.after := by
  have hzn := H.sub.1
  have hl0 := (At.cons_iff (f := ⟨.left, cz, z, r⟩).2 H).top_eq_nil_iff
  have hr0 := (At.cons_iff (f := ⟨.right, cz, z, l⟩).2 H).top_eq_nil_iff
  obtain ⟨s, hs, hx⟩ : ∃ s, (l = .nil ∧ s = r ∨ r = .nil ∧ s = l) ∧
      (if l.top tree.nil ≠ tree.nil then l.top tree.nil else r.top tree.nil) = s.top tree.nil := by
    by_cases hln : l = .nil
    · exact ⟨r, .inl ⟨hln, rfl⟩, if_neg (by simp [hln])⟩
    · exact ⟨l, .inr ⟨hone.resolve_left hln, rfl⟩, if_pos (mt hl0.1 hln)⟩
  obtain ⟨n, hn, hcn, htop⟩ := Ctx.RB_of_plug hm hb
  obtain ⟨H₁, hup, hred⟩ := H.cutOut hs
  obtain ⟨h', t', n', hfin, H', hn', hb', hord⟩ := finish_spec H₁ rfl hup hn hcn hs
    (fun hcz => (htop hcz).1) hfuel
  refine ⟨h', t', n', ?_, H', hn', hb', ?_⟩
  · have hzmem : z ∈ (Tree.node cz l z r).inorder := by simp
    have hzr : (h z).red = cz := by rw [hzn]
    have hcond : (h z).left = tree.nil ∨ (h z).right = tree.nil := by
      rw [hzn]
      exact hone.imp hl0.2 hr0.2
    have hx' : (if (h z).left ≠ tree.nil then (h z).left else (h z).right) = s.top tree.nil := by
      rw [hzn]
      exact hx
    rw [rbDelete, if_pos hcond, Res.pure_eq, Res.ok_bind]
    simp only [hx']
    rw [assert_pos ⟨H.ne_root hzmem, H.ne_nil hzmem⟩, Res.ok_bind, hred, hzr,
      if_neg (not_not.2 rfl : ¬ z ≠ z)]
    exact hfin
  · rw [hord, Ctx.inorder_plug]
    rcases hs with ⟨rfl, rfl⟩ | ⟨rfl, rfl⟩
    · simp
    · simp

/-- `rb_delete` of a node that has two children: its successor is cut out and put in its place. -/
theorem rbDelete_two (H : At h tree c (.node cz l z r)) (hm : (c.plug (.node cz l z r)).RB m)
    (hb : (c.plug (.node cz l z r)).isRed = false) (hln : l ≠ .nil) (hrn : r ≠ .nil)
    (hfuel : (c.plug (.node cz l z r)).inorder.length ≤ fuel) :
    ∃ (h' : RbHeap α) (t' : Tree α) (n : ℕ), rbDelete fuel tree h z = .ok h' ∧
      At h' tree [] t' ∧ t'.RB n ∧ t'.isRed = false ∧
      t'.inorder = c.before ++ (l.inorder ++ r.inorder) ++ c.after := by
  have hzn := H.sub.1
  have Hr := At.cons_iff (f := ⟨.right, cz, z, l⟩).2 H
  have hl0 := (At.cons_iff (f := ⟨.left, cz, z, r⟩).2 H).top_eq_nil_iff
  have hr0 := Hr.top_eq_nil_iff
  have hlen : r.inorder.length ≤ fuel := by
    rw [Ctx.inorder_plug, Tree.inorder_node] at hfuel
    simp only [List.length_append, List.length_cons] at hfuel
    omega
  -- the successor, at the far left of the right subtree
  obtain ⟨c₂, cy, y, s, hsucc, rfl, hdir₂⟩ := rbExtreme_spec .left Hr hrn hlen
  have hrord : (c₂.plug (.mk .left cy .nil y s)).inorder = y :: (s.inorder ++ c₂.after) := by
    rw [Ctx.inorder_plug, Ctx.before_eq_nil hdir₂]
    simp [Tree.mk]
  have hsord : (c₂.plug s).inorder = s.inorder ++ c₂.after := by
    rw [Ctx.inorder_plug, Ctx.before_eq_nil hdir₂]
    rfl
  have Hy : At h tree (c₂ ++ ⟨.right, cz, z, l⟩ :: c) (.node cy .nil y s) := At.plug_iff.2 Hr
  have hyn := Hy.sub.1
  have hymem : y ∈ (Tree.node cy .nil y s).inorder := by simp
  have hplugy : (c₂ ++ ⟨.right, cz, z, l⟩ :: c).plug (.node cy .nil y s) =
      c.plug (.node cz l z (c₂.plug (.mk .left cy .nil y s))) := Ctx.plug_append _ _ _
  rw [← hplugy] at hm hb hfuel
  obtain ⟨n, hn, hcn, htop⟩ := Ctx.RB_of_plug hm hb
  -- cut it out
  obtain ⟨H₁, hup₁, hred₁⟩ := Hy.cutOut (s := s) (.inl ⟨rfl, rfl⟩)
  have H₂ : At (rbCutOut h y (s.top tree.nil)) tree c (.node cz l z (c₂.plug s)) :=
    At.cons_iff (f := ⟨.right, cz, z, l⟩).1 (At.plug_iff.1 H₁)
  -- put it in the place of `z`
  have hnd := H.nodup
  rw [Tree.inorder_node, hrord] at hnd
  simp only [List.nodup_cons, List.nodup_append, List.mem_append, List.mem_cons, not_or] at hnd
  have hyfresh : y ∉ tree.nil :: tree.root ::
      ((Tree.node cz l z (c₂.plug s)).inorder ++ c.keys) := by
    rw [Tree.inorder_node, hsord]
    simp only [List.mem_append, List.mem_cons, not_or]
    grind
  have hyz : y ≠ z := by
    rintro rfl
    exact hyfresh (by simp)
  obtain ⟨H₃, hup₃⟩ := H₂.replace hln hyfresh
  have H₄ : At (rbReplace (rbCutOut h y (s.top tree.nil)) z y) tree
      (c₂ ++ ⟨.right, cz, y, l⟩ :: c) s :=
    At.plug_iff.2 (At.cons_iff (f := ⟨.right, cz, y, l⟩).2 H₃)
  have hup : (rbReplace (rbCutOut h y (s.top tree.nil)) z y (s.top tree.nil)).parent =
      (c₂ ++ ⟨.right, cz, y, l⟩ :: c).parent tree.root := by
    by_cases hsn : s = .nil
    · subst hsn
      rw [Tree.top_nil] at hup₁ hup₃ ⊢
      rw [hup₃]
      cases c₂ with
      | nil => simp
      | cons f c₂ =>
        have hne : Ctx.plug (f :: c₂) .nil ≠ .nil := by
          rw [Ctx.plug_cons]
          exact Ctx.plug_ne_nil (by cases hd : f.dir <;> simp [Frame.attach, Tree.mk, hd])
        rw [if_neg hne, hup₁]
        rfl
    · exact H₄.parent_top hsn
  have hclen : (c₂ ++ ⟨.right, cz, y, l⟩ :: c).length ≤ fuel := by
    have h1 := Ctx.length_le_keys (c₂ ++ ⟨.right, cz, z, l⟩ :: c)
    have h2 := (Ctx.inorder_plug_perm (c₂ ++ ⟨.right, cz, z, l⟩ :: c) (.node cy .nil y s)).length_eq
    simp only [List.length_append, List.length_cons] at h1 h2 ⊢
    omega
  obtain ⟨h', t', n', hfin, H', hn', hb', hord⟩ := finish_spec H₄ rfl hup hn (Ctx.RB_rename hcn)
    (.inl ⟨rfl, rfl⟩) (fun _ => by simp) hclen
  refine ⟨h', t', n', ?_, H', hn', hb', ?_⟩
  · have hcond : ¬ ((h z).left = tree.nil ∨ (h z).right = tree.nil) := by
      rw [hzn]
      exact not_or.2 ⟨mt hl0.1 hln, mt hr0.1 hrn⟩
    have hrun : rbTreeSuccessor fuel tree h z = .ok y := by
      rw [rbTreeSuccessor, if_pos (not_or.1 hcond).2, hzn]
      exact hsucc
    have hx : (if (h y).left ≠ tree.nil then (h y).left else (h y).right) = s.top tree.nil := by
      rw [hyn]
      simp
    have hyred : (h y).red = cy := by rw [hyn]
    rw [rbDelete, if_neg hcond, hrun, Res.ok_bind]
    simp only [hx]
    rw [assert_pos ⟨Hy.ne_root hymem, Hy.ne_nil hymem⟩, Res.ok_bind, hred₁, hyred, if_pos hyz]
    exact hfin
  · rw [hord, Ctx.plug_append, Ctx.plug_cons, Ctx.inorder_plug, hrord]
    simp [Frame.attach, Tree.mk, hsord]

end Delete

/-- **`rb_delete` on a well-formed tree.** -/
theorem rbDelete_spec {compare : α → α → ℤ} {z : α} (H : tree.WF compare h t)
    (hz : z ∈ t.inorder) {fuel : ℕ} (hfuel : t.inorder.length ≤ fuel) :
    ∃ (h' : RbHeap α) (t' : Tree α), rbDelete fuel tree h z = .ok h' ∧
      tree.WF compare h' t' ∧ t'.inorder = t.inorder.erase z := by
  obtain ⟨c, cz, l, r, rfl⟩ := Ctx.exists_plug hz
  obtain ⟨m₀, hm₀⟩ := H.balanced
  have Hz := At.root_iff.2 H.shape
  have hmain : ∃ (h' : RbHeap α) (t' : Tree α) (n : ℕ), rbDelete fuel tree h z = .ok h' ∧
      At h' tree [] t' ∧ t'.RB n ∧ t'.isRed = false ∧
      t'.inorder = c.before ++ (l.inorder ++ r.inorder) ++ c.after := by
    by_cases hone : l = .nil ∨ r = .nil
    · refine rbDelete_one Hz hm₀ H.black hone ?_
      have h1 := Ctx.length_le_keys c
      have h2 := (Ctx.inorder_plug_perm c (.node cz l z r)).length_eq
      rw [List.length_append] at h2
      omega
    · rw [not_or] at hone
      exact rbDelete_two Hz hm₀ H.black hone.1 hone.2 hfuel
  obtain ⟨h', t', n, hrun, H', hn, hb, hord⟩ := hmain
  have herase : t'.inorder = (c.plug (.node cz l z r)).inorder.erase z := by
    have hnd := H.shape.inorder_nodup
    have hzl : z ∉ c.before ++ l.inorder := by
      rw [Ctx.inorder_plug, Tree.inorder_node] at hnd
      simp only [List.nodup_append, List.mem_append, List.mem_cons] at hnd
      rw [List.mem_append]
      grind
    rw [hord, Ctx.inorder_plug, Tree.inorder_node]
    simp only [List.append_assoc, List.cons_append]
    rw [← List.append_assoc, ← List.append_assoc c.before, List.erase_append_right _ hzl,
      List.erase_cons_head]
  refine ⟨h', t', hrun, ⟨H', hb, ⟨n, hn⟩, ?_⟩, herase⟩
  rw [herase]
  exact H.sorted.sublist List.erase_sublist

theorem rbDelete_mono {z : α} {fuel fuel' : ℕ} (hle : fuel ≤ fuel') :
    (rbDelete fuel tree h z).Le (rbDelete fuel' tree h z) := by
  have hfix : ∀ h' x, (rbDeleteFixup fuel tree h' x).Le (rbDeleteFixup fuel' tree h' x) := by
    intro h' x
    exact Res.Le.bind (whileLoop_mono hle _) fun _ => Res.Le.refl _
  have hsucc : (rbTreeSuccessor fuel tree h z).Le (rbTreeSuccessor fuel' tree h z) := by
    rw [rbTreeSuccessor, rbTreeSuccessor]
    refine Res.Le.ite (whileLoop_mono hle _) ?_
    exact Res.Le.bind (whileLoop_mono hle _) fun _ => Res.Le.refl _
  rw [rbDelete, rbDelete]
  refine Res.Le.ite ?_ ?_
  · refine Res.Le.bind (Res.Le.refl _) fun _ => Res.Le.bind (Res.Le.refl _) fun _ => ?_
    exact Res.Le.ite (hfix _ _) (Res.Le.refl _)
  · refine Res.Le.bind hsucc fun _ => Res.Le.bind (Res.Le.refl _) fun _ => ?_
    exact Res.Le.ite (hfix _ _) (Res.Le.refl _)

/-- **Deletion keeps a red-black tree well-formed.**  It ends for every amount of fuel that is not
below the number of nodes, no assertion fires, and exactly the node `z` leaves the in-order
sequence. -/
theorem rbDelete_wellFormed {compare : α → α → ℤ} {z : α} (H : tree.WF compare h t)
    (hz : z ∈ t.inorder) :
    ∃ (h' : RbHeap α) (t' : Tree α),
      (∀ fuel, t.inorder.length ≤ fuel → rbDelete fuel tree h z = .ok h') ∧
      tree.WF compare h' t' ∧ t'.inorder = t.inorder.erase z ∧ z ∉ t'.inorder := by
  obtain ⟨h', t', hrun, H', hord⟩ := rbDelete_spec H hz le_rfl
  refine ⟨h', t', fun fuel hfuel => rbDelete_mono hfuel h' hrun, H', hord, ?_⟩
  rw [hord]
  exact H.shape.inorder_nodup.not_mem_erase

theorem rbDelete_wellFormed_sample :
    ∃ (h' : RbHeap ℕ) (t' : Tree ℕ),
      (∀ fuel, 3 ≤ fuel → rbDelete fuel ⟨0, 1, 2⟩ sampleHeap 4 = .ok h') ∧
      (⟨0, 1, 2⟩ : RbTree ℕ).WF sampleCompare h' t' ∧
      t'.inorder = [3, 4, 5].erase 4 ∧ 4 ∉ t'.inorder :=
  rbDelete_wellFormed sampleHeap_wf (by decide)

end Ucore
