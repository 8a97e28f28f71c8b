import Ucore.RbTree.Defs

/-!
# The heap seen as a tree

`Linked h nil t p` says that the nodes of `t` are linked in the heap `h` as `t` says, below the
parent `p`, and `LinkedCtx h tree c q` that the nodes of the context `c` are, around a hole that
holds the pointer `q`.  `At h tree c t` puts the two together: the heap holds the tree `plug c t`,
all pointers are different, and we stand at `t`.  Walking up or down in the tree changes the way
`plug c t` is split, and nothing else (`At.cons_iff`).

On this level an assignment to a colour is `At.setRed`, and a rotation is `At.rotate`: the rotation
of the textbook at the place where we stand, with no other node of the heap touched.

What makes the lemmas short is that only the nodes in sight matter.  `Linked.congr` and
`LinkedCtx.congr` say that an assignment to a node which is not in a subtree, or not in the context,
leaves its links alone, and since all pointers are different it is clear for each assignment where
its node is.  The `parent` field of `nil` is no part of this, as only `rb_delete` uses it.
-/

set_option autoImplicit false

namespace Ucore

variable {α : Type}

/-! ## Nodes seen from a direction -/

/-- The node with child pointer `a` towards `d` and `b` on the other side. -/
def RbNode.of (d : Dir) (c : Bool) (p a b : α) : RbNode α :=
  match d with
  | .left => ⟨c, p, a, b⟩
  | .right => ⟨c, p, b, a⟩

namespace RbNode

@[simp] theorem of_red (d : Dir) (c : Bool) (p a b : α) : (of d c p a b).red = c := by
  cases d <;> rfl

@[simp] theorem of_parent (d : Dir) (c : Bool) (p a b : α) : (of d c p a b).parent = p := by
  cases d <;> rfl

@[simp] theorem of_child (d : Dir) (c : Bool) (p a b : α) : (of d c p a b).child d = a := by
  cases d <;> rfl

@[simp] theorem of_child_other (d : Dir) (c : Bool) (p a b : α) :
    (of d c p a b).child d.other = b := by cases d <;> rfl

@[simp] theorem of_setChild (d : Dir) (c : Bool) (p a b y : α) :
    (of d c p a b).setChild d y = of d c p y b := by cases d <;> rfl

@[simp] theorem of_setChild_other (d : Dir) (c : Bool) (p a b y : α) :
    (of d c p a b).setChild d.other y = of d c p a y := by cases d <;> rfl

@[simp] theorem of_withParent (d : Dir) (c : Bool) (p p' a b : α) :
    { of d c p a b with parent := p' } = of d c p' a b := by cases d <;> rfl

@[simp] theorem of_withRed (d : Dir) (c c' : Bool) (p a b : α) :
    { of d c p a b with red := c' } = of d c' p a b := by cases d <;> rfl

@[simp] theorem setChild_red (n : RbNode α) (d : Dir) (y : α) : (n.setChild d y).red = n.red := by
  cases d <;> rfl

@[simp] theorem setChild_parent (n : RbNode α) (d : Dir) (y : α) :
    (n.setChild d y).parent = n.parent := by cases d <;> rfl

@[simp] theorem setChild_child (n : RbNode α) (d : Dir) (y : α) : (n.setChild d y).child d = y := by
  cases d <;> rfl

@[simp] theorem setChild_child_other (n : RbNode α) (d : Dir) (y : α) :
    (n.setChild d y).child d.other = n.child d.other := by cases d <;> rfl

end RbNode

/-! ## Trees and contexts in a heap -/

/-- The nodes of `t` are linked as `t` says, below the parent `p`. -/
def Linked (h : RbHeap α) (nil : α) : Tree α → α → Prop
  | .nil, _ => True
  | .node c l x r, p => h x = ⟨c, p, l.top nil, r.top nil⟩ ∧ Linked h nil l x ∧ Linked h nil r x

/-- The nodes of `c` are linked as `c` says, up to the root sentinel, around a hole that holds the
pointer `q`. -/
def LinkedCtx (h : RbHeap α) (tree : RbTree α) : Ctx α → α → Prop
  | [], q => (h tree.root).left = q ∧ (h tree.root).right = tree.nil ∧ (h tree.root).red = false
  | f :: c, q =>
    h f.key = .of f.dir f.red (Ctx.parent tree.root c) q (f.sibling.top tree.nil) ∧
      Linked h tree.nil f.sibling f.key ∧ LinkedCtx h tree c f.key

@[simp] theorem linked_nil (h : RbHeap α) (nil p : α) : Linked h nil .nil p := trivial

theorem linked_mk {h : RbHeap α} {nil p x : α} {d : Dir} {c : Bool} {a b : Tree α} :
    Linked h nil (.mk d c a x b) p ↔
      h x = .of d c p (a.top nil) (b.top nil) ∧ Linked h nil a x ∧ Linked h nil b x := by
  cases d
  · exact Iff.rfl
  · rw [Tree.mk, Linked, RbNode.of]
    tauto

/-- Only the nodes of a tree matter for its links. -/
theorem Linked.congr {h h' : RbHeap α} {nil p : α} {t : Tree α} (hl : Linked h nil t p)
    (heq : ∀ x ∈ t.inorder, h' x = h x) : Linked h' nil t p := by
  induction t generalizing p with
  | nil => trivial
  | node c l x r ihl ihr =>
    obtain ⟨hx, hll, hlr⟩ := hl
    refine ⟨by rw [heq x (by simp), hx], ihl hll fun y hy => heq y ?_, ihr hlr fun y hy => heq y ?_⟩
    · simp [hy]
    · simp [hy]

/-- A tree whose top node gets a new parent hangs below that parent. -/
theorem Linked.reparent {h h' : RbHeap α} {nil p p' : α} {t : Tree α} (hl : Linked h nil t p)
    (hnd : t.inorder.Nodup) (htop : t ≠ .nil → h' (t.top nil) = { h (t.top nil) with parent := p' })
    (heq : ∀ x ∈ t.inorder, x ≠ t.top nil → h' x = h x) : Linked h' nil t p' := by
  cases t with
  | nil => trivial
  | node c l x r =>
    obtain ⟨hx, hll, hlr⟩ := hl
    have htop := htop (by simp)
    rw [Tree.top_node, hx] at htop
    rw [Tree.inorder_node, List.nodup_middle, List.nodup_cons, List.mem_append, not_or] at hnd
    refine ⟨htop, hll.congr fun y hy => heq y (by simp [hy]) ?_,
      hlr.congr fun y hy => heq y (by simp [hy]) ?_⟩
    · rintro rfl
      exact hnd.1.1 hy
    · rintro rfl
      exact hnd.1.2 hy

/-- Only the nodes of a context and the root sentinel matter for its links. -/
theorem LinkedCtx.congr {h h' : RbHeap α} {tree : RbTree α} {c : Ctx α} {q : α}
    (hl : LinkedCtx h tree c q) (hroot : h' tree.root = h tree.root)
    (heq : ∀ x ∈ c.keys, h' x = h x) : LinkedCtx h' tree c q := by
  induction c generalizing q with
  | nil => rw [LinkedCtx, hroot]; exact hl
  | cons f c ih =>
    obtain ⟨hf, hs, hc⟩ := hl
    refine ⟨by rw [heq _ (by simp), hf], hs.congr fun y hy => heq y (by simp [hy]),
      ih hc fun y hy => heq y (by simp [hy])⟩

/-- The direction of the hole below the node above it. -/
def Ctx.dir : Ctx α → Dir
  | [] => .left
  | f :: _ => f.dir

/-- A context in which the node above the hole points to something else. -/
theorem LinkedCtx.replace {h h' : RbHeap α} {tree : RbTree α} {c : Ctx α} {q q' : α}
    (hl : LinkedCtx h tree c q) (hnd : (tree.root :: c.keys).Nodup)
    (hp : h' (c.parent tree.root) = (h (c.parent tree.root)).setChild c.dir q')
    (heq : ∀ x ∈ tree.root :: c.keys, x ≠ c.parent tree.root → h' x = h x) :
    LinkedCtx h' tree c q' := by
  cases c with
  | nil =>
    obtain ⟨-, h2, h3⟩ := hl
    simp only [Ctx.parent_nil, Ctx.dir] at hp
    simp only [LinkedCtx, hp]
    exact ⟨rfl, h2, h3⟩
  | cons f c =>
    obtain ⟨hf, hs, hc⟩ := hl
    simp only [Ctx.parent_cons, Ctx.dir, hf, RbNode.of_setChild] at hp
    simp only [Ctx.keys_cons, List.nodup_cons, List.mem_cons, List.mem_append, not_or] at hnd
    obtain ⟨⟨hrf, -, -⟩, ⟨hfs, hfc⟩, -⟩ := hnd
    refine ⟨hp, hs.congr fun y hy => heq y (by simp [hy]) ?_,
      hc.congr (heq _ (by simp) hrf) fun y hy => heq y (by simp [hy]) ?_⟩
    · rintro rfl
      exact hfs hy
    · rintro rfl
      exact hfc hy

theorem LinkedCtx.child_parent {h : RbHeap α} {tree : RbTree α} {c : Ctx α} {q : α}
    (hl : LinkedCtx h tree c q) : (h (c.parent tree.root)).child c.dir = q := by
  cases c with
  | nil => exact hl.1
  | cons f c => rw [Ctx.parent_cons, hl.1, Ctx.dir, RbNode.of_child]

/-- **The heap holds the tree `plug c t`, and we stand at `t`.** -/
structure At (h : RbHeap α) (tree : RbTree α) (c : Ctx α) (t : Tree α) : Prop where
  ctx : LinkedCtx h tree c (t.top tree.nil)
  sub : Linked h tree.nil t (c.parent tree.root)
  nodup : (tree.nil :: tree.root :: (t.inorder ++ c.keys)).Nodup
  nilBlack : (h tree.nil).red = false

theorem nodup_attach_iff {z r : α} {f : Frame α} {c : Ctx α} {t : Tree α} :
    (z :: r :: (t.inorder ++ Ctx.keys (f :: c))).Nodup ↔
      (z :: r :: ((f.attach t).inorder ++ Ctx.keys c)).Nodup := by
  refine List.Perm.nodup_iff (List.Perm.cons _ (List.Perm.cons _ ?_))
  have h1 := (Tree.inorder_mk_perm f.dir f.red t f.key f.sibling).append_right c.keys
  refine List.Perm.trans ?_ h1.symm
  simp only [Ctx.keys_cons, List.cons_append, List.append_assoc]
  exact List.perm_middle

/-- One step up, or down. -/
theorem At.cons_iff {h : RbHeap α} {tree : RbTree α} {f : Frame α} {c : Ctx α} {t : Tree α} :
    At h tree (f :: c) t ↔ At h tree c (f.attach t) := by
  constructor
  · rintro ⟨⟨hf, hs, hc⟩, ht, hnd, hn⟩
    exact ⟨by rwa [Frame.attach, Tree.top_mk], linked_mk.2 ⟨hf, ht, hs⟩, nodup_attach_iff.1 hnd, hn⟩
  · rintro ⟨hc, ht, hnd, hn⟩
    obtain ⟨hf, ht, hs⟩ := linked_mk.1 ht
    rw [Frame.attach, Tree.top_mk] at hc
    exact ⟨⟨hf, hs, hc⟩, ht, nodup_attach_iff.2 hnd, hn⟩

theorem At.plug_iff {h : RbHeap α} {tree : RbTree α} {c c' : Ctx α} {t : Tree α} :
    At h tree (c ++ c') t ↔ At h tree c' (c.plug t) := by
  induction c generalizing t with
  | nil => exact Iff.rfl
  | cons f c ih => rw [List.cons_append, At.cons_iff, ih, Ctx.plug_cons]

theorem At.root_iff {h : RbHeap α} {tree : RbTree α} {c : Ctx α} {t : Tree α} :
    At h tree c t ↔ At h tree [] (c.plug t) := by
  rw [← At.plug_iff, List.append_nil]

/-! ### All pointers in sight are different -/

theorem Ctx.parent_mem (z : α) (c : Ctx α) : c.parent z ∈ z :: c.keys := by
  cases c <;> simp

namespace At

variable {h : RbHeap α} {tree : RbTree α} {c : Ctx α} {t : Tree α}

theorem nil_ne_root (H : At h tree c t) : tree.nil ≠ tree.root := by
  have hnd := H.nodup
  simp only [List.nodup_cons, List.mem_cons, not_or] at hnd
  exact hnd.1.1

theorem ne_nil (H : At h tree c t) {x : α} (hx : x ∈ t.inorder) : x ≠ tree.nil := by
  have hnd := H.nodup
  simp only [List.nodup_cons, List.mem_cons, List.mem_append, not_or] at hnd
  rintro rfl
  exact hnd.1.2.1 hx

theorem ne_root (H : At h tree c t) {x : α} (hx : x ∈ t.inorder) : x ≠ tree.root := by
  have hnd := H.nodup
  simp only [List.nodup_cons, List.mem_cons, List.mem_append, not_or] at hnd
  rintro rfl
  exact hnd.2.1.1 hx

theorem parent_ne_nil (H : At h tree c t) : c.parent tree.root ≠ tree.nil := by
  have hnd := H.nodup
  have hmem := Ctx.parent_mem tree.root c
  simp only [List.nodup_cons, List.mem_cons, List.mem_append, not_or] at hnd hmem
  rintro heq
  rw [heq] at hmem
  exact hmem.elim hnd.1.1 hnd.1.2.2

theorem parent_not_mem (H : At h tree c t) : c.parent tree.root ∉ t.inorder := by
  have hnd := H.nodup
  have hmem := Ctx.parent_mem tree.root c
  rw [List.nodup_cons, List.nodup_cons, List.nodup_append] at hnd
  intro hx
  rcases List.mem_cons.1 hmem with heq | hk
  · rw [heq] at hx
    exact hnd.2.1 (List.mem_append_left _ hx)
  · exact hnd.2.2.2.2 _ hx _ hk rfl

theorem inorder_nodup (H : At h tree c t) : t.inorder.Nodup :=
  (List.nodup_append.1 (List.nodup_cons.1 (List.nodup_cons.1 H.nodup).2).2).1

theorem keys_nodup (H : At h tree c t) : (tree.root :: c.keys).Nodup := by
  have hnd := (List.nodup_cons.1 H.nodup).2
  rw [List.nodup_cons, List.mem_append, not_or, List.nodup_append] at hnd
  exact List.nodup_cons.2 ⟨hnd.1.2, hnd.2.2.1⟩

theorem not_mem_keys (H : At h tree c t) {x : α} (hx : x ∈ t.inorder) : x ∉ c.keys := by
  have hnd := (List.nodup_cons.1 (List.nodup_cons.1 H.nodup).2).2
  rw [List.nodup_append] at hnd
  exact fun hk => hnd.2.2 _ hx _ hk rfl

/-- The node above `x` points to `x` from the side of the hole only. -/
theorem child_parent (H : At h tree c t) :
    (h (c.parent tree.root)).child c.dir = t.top tree.nil :=
  H.ctx.child_parent

theorem child_parent_other (H : At h tree c t) (ht : t ≠ .nil) :
    (h (c.parent tree.root)).child c.dir.other ≠ t.top tree.nil := by
  have hmem : t.top tree.nil ∈ t.inorder := Tree.top_mem_inorder ht
  have hctx := H.ctx
  cases c with
  | nil =>
    have h2 : (h tree.root).child Dir.right = tree.nil := hctx.2.1
    simp only [Ctx.parent_nil, Ctx.dir, Dir.other_left, h2]
    exact (H.ne_nil hmem).symm
  | cons f c =>
    rw [Ctx.parent_cons, hctx.1, Ctx.dir, RbNode.of_child_other]
    intro heq
    by_cases hs : f.sibling = .nil
    · rw [hs, Tree.top_nil] at heq
      exact H.ne_nil hmem heq.symm
    · refine H.not_mem_keys hmem ?_
      rw [← heq]
      simp [Tree.top_mem_inorder hs]

theorem node_eq {d : Dir} {red : Bool} {a b : Tree α} {x : α}
    (H : At h tree c (.mk d red a x b)) :
    h x = .of d red (c.parent tree.root) (a.top tree.nil) (b.top tree.nil) :=
  (linked_mk.1 H.sub).1

end At

/-! ## Rotation -/

variable [DecidableEq α]

/-- What a rotation writes, for pointers that do not coincide.  `p` is the node above `x`, `e` the
direction in which it points to `x`, and `b` the subtree that changes sides. -/
theorem rbRotate_eq {tree : RbTree α} {d e : Dir} {h : RbHeap α} {x y b p : α}
    (hy : (h x).child d.other = y) (hb : (h y).child d = b) (hp : (h x).parent = p)
    (he : (h p).child e = x) (he' : (h p).child e.other ≠ x)
    (hxr : x ≠ tree.root) (hxn : x ≠ tree.nil) (hyn : y ≠ tree.nil)
    (hxy : x ≠ y) (hpx : p ≠ x) (hpy : p ≠ y)
    (hbx : b ≠ tree.nil → b ≠ x) (hby : b ≠ tree.nil → b ≠ y) (hbp : b ≠ tree.nil → b ≠ p)
    (hnil : (h tree.nil).red = false) :
    ∃ h', rbRotate tree d h x = .ok h' ∧
      h' x = { (h x).setChild d.other b with parent := y } ∧
      h' y = { (h y).setChild d x with parent := p } ∧
      h' p = (h p).setChild e y ∧
      (b ≠ tree.nil → h' b = { h b with parent := x }) ∧
      (∀ q, q ≠ x → q ≠ y → q ≠ p → (q = b → b = tree.nil) → h' q = h q) ∧
      (h' tree.nil).red = false := by
  -- the heap after the two lines that move `b` below `x`
  obtain ⟨h₁, hh₁, h₁x, h₁b, h₁q⟩ : ∃ h₁ : RbHeap α,
      (if ((h.setChild x d.other b) y).child d ≠ tree.nil then
        (h.setChild x d.other b).setParent (((h.setChild x d.other b) y).child d) x
      else h.setChild x d.other b) = h₁ ∧
      h₁ x = (h x).setChild d.other b ∧
      (b ≠ tree.nil → h₁ b = { h b with parent := x }) ∧
      (∀ q, q ≠ x → (q = b → b = tree.nil) → h₁ q = h q) := by
    have hby' : ((h.setChild x d.other b) y).child d = b := by
      rw [RbHeap.setChild, Function.update_of_ne hxy.symm, hb]
    rw [hby']
    by_cases hbn : b = tree.nil
    · refine ⟨_, if_neg (not_not.2 hbn), by simp [RbHeap.setChild], fun hb => absurd hbn hb,
        fun q hq _ => by rw [RbHeap.setChild, Function.update_of_ne hq]⟩
    · refine ⟨_, if_pos hbn, ?_, fun _ => ?_, fun q hq hqb => ?_⟩
      · rw [RbHeap.setParent, Function.update_of_ne (hbx hbn).symm, RbHeap.setChild,
          Function.update_self]
      · rw [RbHeap.setParent, Function.update_self, RbHeap.setChild,
          Function.update_of_ne (hbx hbn)]
      · have hqb' : q ≠ b := fun hq => hbn (hqb hq)
        rw [RbHeap.setParent, Function.update_of_ne hqb', RbHeap.setChild, Function.update_of_ne hq]
  have h₁p : h₁ p = h p := h₁q p hpx fun hq => by_contra fun hbn => hbp hbn hq.symm
  have h₁y : h₁ y = h y := h₁q y hxy.symm fun hq => by_contra fun hbn => hby hbn hq.symm
  have h₁xp : (h₁ x).parent = p := by rw [h₁x, RbNode.setChild_parent, hp]
  -- the link from `p` down to `y`
  obtain ⟨h₂, hh₂, h₂p, h₂q⟩ : ∃ h₂ : RbHeap α,
      (if x = ((h₁.setParent y p) p).child d then (h₁.setParent y p).setChild p d y
      else (h₁.setParent y p).setChild p d.other y) = h₂ ∧
      h₂ p = (h p).setChild e y ∧ ∀ q, q ≠ p → h₂ q = (h₁.setParent y p) q := by
    have hpp : (h₁.setParent y p) p = h p := by
      rw [RbHeap.setParent, Function.update_of_ne hpy, h₁p]
    rw [hpp]
    by_cases hde : d = e
    · subst hde
      refine ⟨_, if_pos he.symm, ?_, fun q hq => ?_⟩
      · rw [RbHeap.setChild, Function.update_self, hpp]
      · rw [RbHeap.setChild, Function.update_of_ne hq]
    · obtain rfl := Dir.eq_other_of_ne hde
      rw [Dir.other_other]
      refine ⟨_, if_neg he'.symm, ?_, fun q hq => ?_⟩
      · rw [RbHeap.setChild, Function.update_self, hpp]
      · rw [RbHeap.setChild, Function.update_of_ne hq]
  have h₂x : h₂ x = (h x).setChild d.other b := by
    rw [h₂q x hpx.symm, RbHeap.setParent, Function.update_of_ne hxy, h₁x]
  have h₂y : h₂ y = { h y with parent := p } := by
    rw [h₂q y hpy.symm, RbHeap.setParent, Function.update_self, h₁y]
  have hlast : ∀ q, q ≠ x → q ≠ y → ((h₂.setChild y d x).setParent x y) q = h₂ q := by
    intro q hqx hqy
    rw [RbHeap.setParent, Function.update_of_ne hqx, RbHeap.setChild, Function.update_of_ne hqy]
  have hframe : ∀ q, q ≠ x → q ≠ y → q ≠ p → (q = b → b = tree.nil) →
      ((h₂.setChild y d x).setParent x y) q = h q := by
    intro q hqx hqy hqp hqb
    rw [hlast q hqx hqy, h₂q q hqp, RbHeap.setParent, Function.update_of_ne hqy, h₁q q hqx hqb]
  have hlastx : ((h₂.setChild y d x).setParent x y) x
      = { (h x).setChild d.other b with parent := y } := by
    rw [RbHeap.setParent, Function.update_self, RbHeap.setChild, Function.update_of_ne hxy, h₂x]
  have hlasty : ((h₂.setChild y d x).setParent x y) y =
      { (h y).setChild d x with parent := p } := by
    rw [RbHeap.setParent, Function.update_of_ne hxy.symm, RbHeap.setChild, Function.update_self,
      h₂y]
    cases d <;> rfl
  have hlastp : ((h₂.setChild y d x).setParent x y) p = (h p).setChild e y := by
    rw [hlast p hpx hpy, h₂p]
  have hlastn : (((h₂.setChild y d x).setParent x y) tree.nil).red = false := by
    by_cases hpn : tree.nil = p
    · rw [hpn, hlastp, RbNode.setChild_red, ← hpn, hnil]
    · rw [hframe _ hxn.symm hyn.symm hpn fun hq => hq.symm, hnil]
  refine ⟨(h₂.setChild y d x).setParent x y, ?_, hlastx, hlasty, hlastp, fun hbn => ?_, hframe,
    hlastn⟩
  · rw [rbRotate]
    simp only [hy, hb]
    rw [assert_pos ⟨hxr, hxn, hyn⟩, Res.ok_bind, hh₁]
    have h₁yx : ((h₁.setParent y p) x).parent = p := by
      rw [RbHeap.setParent, Function.update_of_ne hxy, h₁xp]
    simp only [h₁xp, h₁yx]
    rw [hh₂, assert_pos hlastn]
    rfl
  · rw [hlast b (hbx hbn) (hby hbn), h₂q b (hbp hbn), RbHeap.setParent,
      Function.update_of_ne (hby hbn), h₁b hbn]

namespace At

variable {h : RbHeap α} {tree : RbTree α} {c : Ctx α}

/-- `x->red = c` at the place where we stand. -/
theorem setRed {d : Dir} {red : Bool} {a b : Tree α} {x : α}
    (H : At h tree c (.mk d red a x b)) (red' : Bool) :
    At (h.setRed x red') tree c (.mk d red' a x b) := by
  have hperm := Tree.inorder_mk_perm d red a x b
  have hx : x ∈ (Tree.mk d red a x b).inorder := hperm.mem_iff.2 (by simp)
  have hnd := hperm.nodup_iff.1 H.inorder_nodup
  have heq : ∀ q, q ≠ x → (h.setRed x red') q = h q := fun q hq => by
    rw [RbHeap.setRed, Function.update_of_ne hq]
  obtain ⟨h1, h2, h3⟩ := linked_mk.1 H.sub
  rw [List.nodup_cons, List.mem_append, not_or] at hnd
  refine ⟨?_, linked_mk.2 ⟨?_, h2.congr fun q hq => heq q ?_, h3.congr fun q hq => heq q ?_⟩, ?_,
    ?_⟩
  · have hc := H.ctx
    rw [Tree.top_mk] at hc ⊢
    refine hc.congr (heq _ (H.ne_root hx).symm) fun q hq => heq q ?_
    rintro rfl
    exact H.not_mem_keys hx hq
  · rw [RbHeap.setRed, Function.update_self, h1, RbNode.of_withRed]
  · rintro rfl
    exact hnd.1.1 hq
  · rintro rfl
    exact hnd.1.2 hq
  · have hsame : (Tree.mk d red' a x b).inorder = (Tree.mk d red a x b).inorder :=
      Tree.inorder_mk_congr rfl rfl
    rw [hsame]
    exact H.nodup
  · rw [heq _ (H.ne_nil hx).symm]
    exact H.nilBlack

/-- **A rotation at the place where we stand.** -/
theorem rotate {d : Dir} {cx cy : Bool} {a b b' : Tree α} {x y : α}
    (H : At h tree c (.mk d cx a x (.mk d cy b y b'))) :
    ∃ h', rbRotate tree d h x = .ok h' ∧ At h' tree c (.mk d cy (.mk d cx a x b) y b') ∧
      h' tree.nil = h tree.nil ∧
      ∀ q, q ∉ (Tree.mk d cx a x (.mk d cy b y b')).inorder → q ≠ c.parent tree.root →
        h' q = h q := by
  obtain ⟨hx, ha, hsub⟩ := linked_mk.1 H.sub
  obtain ⟨hy, hb, hb'⟩ := linked_mk.1 hsub
  -- all the nodes in sight, and that they differ
  have hperm : (Tree.mk d cx a x (.mk d cy b y b')).inorder.Perm
      (x :: (a.inorder ++ y :: (b.inorder ++ b'.inorder))) :=
    (Tree.inorder_mk_perm d cx a x _).trans
      (((Tree.inorder_mk_perm d cy b y b').append_left _).cons _)
  have hnd := hperm.nodup_iff.1 H.inorder_nodup
  have hmem : ∀ q, q ∈ (Tree.mk d cx a x (.mk d cy b y b')).inorder ↔
      q = x ∨ q ∈ a.inorder ∨ q = y ∨ q ∈ b.inorder ∨ q ∈ b'.inorder := by
    intro q
    rw [hperm.mem_iff]
    simp
  simp only [List.nodup_cons, List.nodup_append, List.mem_append, List.mem_cons, not_or] at hnd
  obtain ⟨⟨hxa, hxy, hxb, hxb'⟩, hanod, ⟨⟨hyb, hyb'⟩, hbnod, -, hbb'⟩, haa⟩ := hnd
  have hpmem := H.parent_not_mem
  rw [hmem] at hpmem
  push Not at hpmem
  obtain ⟨hpx, hpa, hpy, hpb, hpb'⟩ := hpmem
  have hbtop : b.top tree.nil ≠ tree.nil → b.top tree.nil ∈ b.inorder := by
    intro hne
    refine Tree.top_mem_inorder ?_
    rintro rfl
    exact hne rfl
  have hchild := H.child_parent
  have hother := H.child_parent_other (by cases d <;> simp [Tree.mk])
  rw [Tree.top_mk] at hchild hother
  have hxmem := (hmem x).2 (.inl rfl)
  have hymem := (hmem y).2 (.inr (.inr (.inl rfl)))
  obtain ⟨h', hrot, h'x, h'y, h'p, h'b, h'q, h'n⟩ := rbRotate_eq (d := d)
    (e := c.dir) (h := h) (x := x) (y := y) (b := b.top tree.nil) (p := c.parent tree.root)
    (by rw [hx, RbNode.of_child_other, Tree.top_mk]) (by rw [hy, RbNode.of_child])
    (by rw [hx, RbNode.of_parent]) hchild hother (H.ne_root hxmem) (H.ne_nil hxmem)
    (H.ne_nil hymem) hxy hpx hpy (fun hne heq => hxb (heq ▸ hbtop hne))
    (fun hne heq => hyb (heq ▸ hbtop hne)) (fun hne heq => hpb (heq ▸ hbtop hne)) H.nilBlack
  have hframe : ∀ q, q ∉ b.inorder → q ≠ x → q ≠ y → q ≠ c.parent tree.root → h' q = h q :=
    fun q hqb hqx hqy hqp => h'q q hqx hqy hqp fun heq => by
      by_contra hne
      exact hqb (heq ▸ hbtop hne)
  have hsame := Tree.inorder_rotate d cx cy cy cx a b b' x y
  refine ⟨h', hrot, ⟨?_, ?_, hsame ▸ H.nodup, h'n⟩, ?_, ?_⟩
  · rw [Tree.top_mk]
    refine H.ctx.replace H.keys_nodup h'p fun q hq hqp => ?_
    have hqt : q ∉ (Tree.mk d cx a x (.mk d cy b y b')).inorder := by
      intro hqt
      rcases List.mem_cons.1 hq with rfl | hqk
      · exact H.ne_root hqt rfl
      · exact H.not_mem_keys hqt hqk
    rw [hmem] at hqt
    push Not at hqt
    exact hframe q hqt.2.2.2.1 hqt.1 hqt.2.2.1 hqp
  · refine linked_mk.2 ⟨?_, linked_mk.2 ⟨?_, ?_, ?_⟩, ?_⟩
    · rw [h'y, hy, RbNode.of_setChild, RbNode.of_withParent, Tree.top_mk]
    · rw [h'x, hx, RbNode.of_setChild_other, RbNode.of_withParent]
    · refine ha.congr fun q hq => hframe q (fun hqb => ?_) ?_ ?_ ?_
      · exact haa q hq q (.inr (.inl hqb)) rfl
      · rintro rfl
        exact hxa hq
      · rintro rfl
        exact haa q hq q (.inl rfl) rfl
      · rintro rfl
        exact hpa hq
    · refine hb.reparent hbnod (fun hne => ?_) fun q hq hqt => h'q q ?_ ?_ ?_ ?_
      · refine h'b fun heq => ?_
        have := H.ne_nil ((hmem (b.top tree.nil)).2
          (.inr (.inr (.inr (.inl (Tree.top_mem_inorder hne))))))
        exact this heq
      · rintro rfl
        exact hxb hq
      · rintro rfl
        exact hyb hq
      · rintro rfl
        exact hpb hq
      · exact fun heq => absurd heq hqt
    · refine hb'.congr fun q hq => hframe q (fun hqb => ?_) ?_ ?_ ?_
      · exact hbb' q hqb q hq rfl
      · rintro rfl
        exact hxb' hq
      · rintro rfl
        exact hyb' hq
      · rintro rfl
        exact hpb' hq
  · refine hframe _ (fun hqb => ?_) (H.ne_nil hxmem).symm (H.ne_nil hymem).symm H.parent_ne_nil.symm
    exact H.ne_nil ((hmem _).2 (.inr (.inr (.inr (.inl hqb))))) rfl
  · intro q hq hqp
    rw [hmem] at hq
    push Not at hq
    exact hframe q hq.2.2.2.1 hq.1 hq.2.2.1 hqp

end At

end Ucore
