import Ucore.RbTree.Linked

/-!
# Insertion into the red-black tree

`RbTree.WF` is what the functions of `lib/rb_tree.c` expect of a tree and give back: the links agree
with each other, the sentinels and the top node are black, the red-black invariant holds, and the
in-order sequence is sorted by `compare`.

`rb_insert` is followed in three stages.

* The descent (`rbDescend_spec`) ends at an empty place with everything that compares less or equal
  to its left and everything greater to its right.
* Linking the new node there (`At.link`) puts it into the in-order sequence.
* The loop (`rbInsertFixup_spec`) keeps `FixAt`: the only possible defect is a red edge above the
  node where it stands.  A round either recolours and climbs by two levels, or rotates the defect
  away (`At.insert_outer`, preceded by one more rotation for an inner grandchild).

The in-order sequence only changes at the second stage, as neither recolouring nor rotating touches
it.  `rbInsert_spec` puts the stages together, and `rbInsert_wellFormed` is the result for every
amount of fuel that is not below the height of the tree.
-/

set_option autoImplicit false

namespace Ucore

variable {α : Type} [DecidableEq α]

/-- `compare` orders the nodes: it is transitive and any two nodes are comparable. -/
structure TotalPreorder (compare : α → α → ℤ) : Prop where
  total : ∀ a b, compare a b ≤ 0 ∨ compare b a ≤ 0
  trans : ∀ a b c, compare a b ≤ 0 → compare b c ≤ 0 → compare a c ≤ 0

/-- **A well-formed red-black tree** with the shape `t`. -/
structure RbTree.WF (tree : RbTree α) (compare : α → α → ℤ) (h : RbHeap α) (t : Tree α) :
    Prop where
  shape : At h tree [] t
  black : t.isRed = false
  balanced : ∃ n, t.RB n
  sorted : t.inorder.Pairwise fun a b => compare a b ≤ 0

/-! ## Reading through the assignments -/

namespace RbHeap

variable (h : RbHeap α) (x q : α) (c : Bool)

@[simp] theorem setRed_parent : (h.setRed x c q).parent = (h q).parent := by
  by_cases hq : q = x
  · subst hq; simp [setRed]
  · simp [setRed, hq]

@[simp] theorem setRed_left : (h.setRed x c q).left = (h q).left := by
  by_cases hq : q = x
  · subst hq; simp [setRed]
  · simp [setRed, hq]

@[simp] theorem setRed_child (d : Dir) : (h.setRed x c q).child d = (h q).child d := by
  by_cases hq : q = x
  · subst hq; cases d <;> simp [setRed, RbNode.child]
  · simp [setRed, hq]

theorem setRed_of_ne {x q : α} (hq : q ≠ x) : h.setRed x c q = h q := by
  rw [setRed, Function.update_of_ne hq]

end RbHeap

namespace At

variable {h : RbHeap α} {tree : RbTree α} {c : Ctx α} {t : Tree α}

omit [DecidableEq α] in
theorem red_top (H : At h tree c t) : (h (t.top tree.nil)).red = t.isRed := by
  cases t with
  | nil => exact H.nilBlack
  | node red l x r => rw [Tree.top_node, H.sub.1, Tree.isRed_node]

omit [DecidableEq α] in
theorem parent_top (H : At h tree c t) (ht : t ≠ .nil) :
    (h (t.top tree.nil)).parent = c.parent tree.root := by
  cases t with
  | nil => exact absurd rfl ht
  | node red l x r => rw [Tree.top_node, H.sub.1]

omit [DecidableEq α] in
theorem red_parent (H : At h tree c t) : (h (c.parent tree.root)).red = c.isRed := by
  cases c with
  | nil => exact H.ctx.2.2
  | cons f c => rw [Ctx.parent_cons, H.ctx.1, RbNode.of_red, Ctx.isRed_cons]

omit [DecidableEq α] in
/-- The test `x == x->parent->d` finds the direction in which we stand. -/
theorem eq_child_iff (H : At h tree c t) (ht : t ≠ .nil) (d : Dir) :
    t.top tree.nil = (h (c.parent tree.root)).child d ↔ c.dir = d := by
  constructor
  · intro heq
    by_contra hne
    rw [← Dir.other_other d, ← Dir.eq_other_of_ne hne] at heq
    exact H.child_parent_other ht heq.symm
  · rintro rfl
    exact H.child_parent.symm

/-- `x->parent->red = red'`. -/
theorem setRed_above {d : Dir} {red : Bool} {p : α} {s : Tree α}
    (H : At h tree (⟨d, red, p, s⟩ :: c) t) (red' : Bool) :
    At (h.setRed p red') tree (⟨d, red', p, s⟩ :: c) t :=
  At.cons_iff.2 ((At.cons_iff.1 H).setRed red')

/-- The sibling's colour, changed from where we stand. -/
theorem setRed_sibling {d d' : Dir} {red cs : Bool} {p y : α} {a b : Tree α}
    (H : At h tree (⟨d, red, p, .mk d' cs a y b⟩ :: c) t) (cs' : Bool) :
    At (h.setRed y cs') tree (⟨d, red, p, .mk d' cs' a y b⟩ :: c) t := by
  have H₁ : At h tree (⟨d.other, red, p, t⟩ :: c) (.mk d' cs a y b) := by
    rw [At.cons_iff, Frame.attach, Tree.mk_other]
    exact At.cons_iff.1 H
  have H₂ := At.cons_iff.1 (H₁.setRed cs')
  rw [Frame.attach, Tree.mk_other] at H₂
  exact At.cons_iff.2 H₂

end At

/-! ## The descent -/

section Descend

variable {compare : α → α → ℤ} {tree : RbTree α} {h : RbHeap α} {t : Tree α}

/-- The descent ends at an empty place between the nodes that compare less or equal and those
that compare greater. -/
theorem rbDescend_spec (hcmp : TotalPreorder compare) (H : At h tree [] t)
    (hsort : t.inorder.Pairwise fun a b => compare a b ≤ 0) (node : α) {fuel : ℕ}
    (hfuel : t.inorder.length ≤ fuel) :
    ∃ c : Ctx α, rbDescend fuel tree compare h node = .ok (c.parent tree.root, tree.nil) ∧
      c.plug .nil = t ∧ (∀ a ∈ c.before, compare a node ≤ 0) ∧
      ∀ b ∈ c.after, 0 < compare b node := by
  -- the invariant: where we stand, and what lies on both sides; the bound is the tree below
  obtain ⟨s', m, hrun, ⟨c, t', hs, ht, hbefore, hafter, -⟩, hguard⟩ := whileLoop_total
    (c := fun s : α × α => decide (s.2 ≠ tree.nil))
    (f := fun s => .ok (s.2, if compare s.2 node > 0 then (h s.2).left else (h s.2).right))
    (fun n s => ∃ (c : Ctx α) (t' : Tree α), s = (c.parent tree.root, t'.top tree.nil) ∧
      c.plug t' = t ∧ (∀ a ∈ c.before, compare a node ≤ 0) ∧
      (∀ b ∈ c.after, 0 < compare b node) ∧ t'.inorder.length = n)
    (by
      rintro n s ⟨c, t', rfl, ht, hbefore, hafter, hn⟩ hguard
      have Hc : At h tree c t' := by rw [At.root_iff, ht]; exact H
      have hsort' : (c.plug t').inorder.Pairwise fun a b => compare a b ≤ 0 := by
        rw [ht]; exact hsort
      rw [Ctx.inorder_plug, List.pairwise_append, List.pairwise_append] at hsort'
      cases t' with
      | nil => simp at hguard
      | node red l x r =>
        have hlr := hsort'.1.2.1
        rw [Tree.inorder_node, List.pairwise_append, List.pairwise_cons] at hlr
        rw [Tree.inorder_node, List.length_append, List.length_cons] at hn
        simp only [Tree.top_node, Hc.sub.1]
        by_cases hx : compare x node > 0
        · refine ⟨_, l.inorder.length, rfl, ⟨⟨.left, red, x, r⟩ :: c, l, ?_, ht, ?_, ?_, rfl⟩, ?_⟩
          · rw [if_pos hx, Ctx.parent_cons]
          · exact hbefore
          · intro b hb
            simp only [Ctx.after, List.cons_append, List.mem_cons, List.mem_append] at hb
            rcases hb with rfl | hb | hb
            · exact hx
            · by_contra hbn
              exact absurd (hcmp.trans x b node (hlr.2.1.1 b hb) (by omega)) (by omega)
            · exact hafter b hb
          · omega
        · refine ⟨_, r.inorder.length, rfl, ⟨⟨.right, red, x, l⟩ :: c, r, ?_, ht, ?_, ?_, rfl⟩, ?_⟩
          · rw [if_neg hx, Ctx.parent_cons]
          · intro a ha
            simp only [Ctx.before, List.mem_append, List.mem_singleton] at ha
            rcases ha with ha | ha | rfl
            · exact hbefore a ha
            · exact hcmp.trans a x node (hlr.2.2 a ha x (by simp)) (by omega)
            · omega
          · exact hafter
          · omega)
    fuel t.inorder.length (tree.root, (h tree.root).left)
    ⟨[], t, by rw [H.ctx.1, Ctx.parent_nil], rfl, by simp [Ctx.before], by simp [Ctx.after], rfl⟩
    hfuel
  rw [hs] at hrun hguard
  have hnil : t' = .nil := by
    by_contra hne
    have Hc : At h tree c t' := by rw [At.root_iff, ht]; exact H
    exact Hc.ne_nil (Tree.top_mem_inorder hne) (by simpa using hguard)
  subst hnil
  exact ⟨c, hrun, ht, hbefore, hafter⟩

end Descend

/-! ## Linking the new node -/

/-- A node hung below an empty place. -/
theorem At.link {h : RbHeap α} {tree : RbTree α} {c : Ctx α} (H : At h tree c .nil) {z q : α}
    {red : Bool} (hzn : z ≠ tree.nil) (hzr : z ≠ tree.root) (hzc : z ∉ c.keys)
    (hz : h z = ⟨red, q, tree.nil, tree.nil⟩) :
    At ((h.setParent z (c.parent tree.root)).setChild (c.parent tree.root) c.dir z) tree c
      (.node red .nil z .nil) := by
  have hpz : c.parent tree.root ≠ z := by
    rintro rfl
    rcases List.mem_cons.1 (Ctx.parent_mem tree.root c) with heq | hk
    · exact hzr heq
    · exact hzc hk
  have hp : h.setParent z (c.parent tree.root) (c.parent tree.root) = h (c.parent tree.root) := by
    rw [RbHeap.setParent, Function.update_of_ne hpz]
  have heq : ∀ x, x ≠ z → x ≠ c.parent tree.root →
      (h.setParent z (c.parent tree.root)).setChild (c.parent tree.root) c.dir z x = h x := by
    intro x hxz hxp
    rw [RbHeap.setChild, Function.update_of_ne hxp, RbHeap.setParent, Function.update_of_ne hxz]
  refine ⟨H.ctx.replace H.keys_nodup ?_ fun x hx hxp => heq x ?_ hxp, ⟨?_, trivial, trivial⟩, ?_,
    ?_⟩
  · rw [RbHeap.setChild, Function.update_self, hp, Tree.top_node]
  · rintro rfl
    rcases List.mem_cons.1 hx with heq | hk
    · exact hzr heq
    · exact hzc hk
  · rw [RbHeap.setChild, Function.update_of_ne hpz.symm, RbHeap.setParent, Function.update_self, hz]
    rfl
  · have hnd := H.nodup
    simp only [Tree.inorder_nil, List.nil_append, List.nodup_cons, List.mem_cons, not_or] at hnd
    simp only [Tree.inorder_node, Tree.inorder_nil, List.nil_append, List.singleton_append,
      List.nodup_cons, List.mem_cons, not_or]
    exact ⟨⟨hnd.1.1, hzn.symm, hnd.1.2⟩, ⟨hzr.symm, hnd.2.1⟩, hzc, hnd.2.2⟩
  · rw [heq _ hzn.symm H.parent_ne_nil.symm]
    exact H.nilBlack

omit [DecidableEq α] in
/-- The test after the descent finds the direction of the empty place. -/
theorem descend_dir {compare : α → α → ℤ} {tree : RbTree α} {c : Ctx α} {node : α}
    (hroot : tree.root ∉ c.keys) (hbefore : ∀ a ∈ c.before, compare a node ≤ 0)
    (hafter : ∀ b ∈ c.after, 0 < compare b node) :
    (c.parent tree.root = tree.root ∨ compare (c.parent tree.root) node > 0) ↔ c.dir = .left := by
  cases c with
  | nil => simp [Ctx.dir]
  | cons f c =>
    obtain ⟨d, red, key, s⟩ := f
    have hne : key ≠ tree.root := by
      rintro rfl
      exact hroot (by simp)
    cases d with
    | left => simp [Ctx.dir, hafter key (by simp [Ctx.after])]
    | right =>
      have := hbefore key (by simp [Ctx.before])
      simp [Ctx.dir, hne]
      omega

theorem rbInsertBinary_spec {compare : α → α → ℤ} {tree : RbTree α} {h : RbHeap α} {t : Tree α}
    {node : α} (hcmp : TotalPreorder compare) (H : At h tree [] t)
    (hsort : t.inorder.Pairwise fun a b => compare a b ≤ 0)
    (hnode : node ∉ tree.nil :: tree.root :: t.inorder) {fuel : ℕ}
    (hfuel : t.inorder.length ≤ fuel) :
    ∃ (h' : RbHeap α) (c : Ctx α), rbInsertBinary fuel tree compare h node = .ok h' ∧
      c.plug .nil = t ∧ At h' tree c (.node (h node).red .nil node .nil) ∧
      (∀ a ∈ c.before, compare a node ≤ 0) ∧ ∀ b ∈ c.after, 0 < compare b node := by
  simp only [List.mem_cons, not_or] at hnode
  obtain ⟨hzn, hzr, hzt⟩ := hnode
  set h₁ := (h.setChild node .right tree.nil).setChild node .left tree.nil with hh₁
  have h₁z : h₁ node = ⟨(h node).red, (h node).parent, tree.nil, tree.nil⟩ := by
    rw [hh₁, RbHeap.setChild, Function.update_self, RbHeap.setChild, Function.update_self]
    rfl
  have h₁q : ∀ q, q ≠ node → h₁ q = h q := fun q hq => by
    rw [hh₁, RbHeap.setChild, Function.update_of_ne hq, RbHeap.setChild, Function.update_of_ne hq]
  have H₁ : At h₁ tree [] t := by
    refine ⟨H.ctx.congr (h₁q _ (Ne.symm hzr)) (by simp), H.sub.congr fun q hq => h₁q q ?_, H.nodup,
      by rw [h₁q _ (Ne.symm hzn)]; exact H.nilBlack⟩
    rintro rfl
    exact hzt hq
  obtain ⟨c, hrun, hplug, hbefore, hafter⟩ := rbDescend_spec hcmp H₁ hsort node hfuel
  have Hc : At h₁ tree c .nil := by rw [At.root_iff, hplug]; exact H₁
  have hzc : node ∉ c.keys := by
    intro hk
    refine hzt ?_
    rw [← hplug, (Ctx.inorder_plug_perm c .nil).mem_iff]
    simp [hk]
  refine ⟨_, c, ?_, hplug, Hc.link hzn hzr hzc h₁z, hbefore, hafter⟩
  have hdir := descend_dir (List.nodup_cons.1 Hc.keys_nodup).1 hbefore hafter
  simp only [rbInsertBinary, ← hh₁, hrun, Res.ok_bind, Res.pure_eq]
  cases hd : c.dir with
  | left => rw [if_pos (hdir.2 hd)]
  | right => rw [if_neg (fun h => by simp [hdir.1 h] at hd)]

/-! ## The loop -/

/-- The last two recolourings and the last rotation of `RB_INSERT_SUB`, for an outer grandchild:
the red edge between `x` and `p` disappears. -/
theorem At.insert_outer {h : RbHeap α} {tree : RbTree α} {c : Ctx α} {d : Dir} {p g x : α}
    {s₁ s₂ a b : Tree α} {red : Bool}
    (H : At h tree (⟨d, true, p, s₁⟩ :: ⟨d, false, g, s₂⟩ :: c) (.node red a x b)) :
    ∃ h', rbRotate tree d.other ((h.setRed p false).setRed g true) g = .ok h' ∧
      At h' tree (⟨d, false, p, .mk d.other true s₂ g s₁⟩ :: c) (.node red a x b) := by
  have H₁ := At.cons_iff.1 (H.setRed_above false)
  have H₂ := At.cons_iff.1 (H₁.setRed_above true)
  simp only [Frame.attach] at H₂
  rw [← Tree.mk_other d false, ← Tree.mk_other d true] at H₂
  obtain ⟨h', hrot, H₃, -⟩ := H₂.rotate
  refine ⟨h', hrot, ?_⟩
  rw [At.cons_iff, Frame.attach, ← Tree.mk_other d false]
  exact H₃

/-- Where the loop of `rb_insert` stands: everything is as it should be, except that the node
above `x` may be red as well as `x`. -/
def FixAt (tree : RbTree α) (L : List α) (n : ℕ) (s : RbHeap α × α) : Prop :=
  ∃ (c : Ctx α) (a b : Tree α) (k : ℕ), At s.1 tree c (.node true a s.2 b) ∧ c.length = n ∧
    (Tree.node true a s.2 b).RB k ∧ c.RB k ∧ (c.plug (.node true a s.2 b)).inorder = L

theorem rbInsertSub_spec {tree : RbTree α} {L : List α} {h : RbHeap α} {x p g : α} {c : Ctx α}
    {d₁ d : Dir} {a b s₁ s₂ : Tree α} {k : ℕ}
    (H : At h tree (⟨d₁, true, p, s₁⟩ :: ⟨d, false, g, s₂⟩ :: c) (.node true a x b))
    (ht : (Tree.node true a x b).RB k)
    (hc : Ctx.RB k (⟨d₁, true, p, s₁⟩ :: ⟨d, false, g, s₂⟩ :: c))
    (hL : (Ctx.plug (⟨d₁, true, p, s₁⟩ :: ⟨d, false, g, s₂⟩ :: c) (.node true a x b)).inorder = L) :
    ∃ s' m, rbInsertSub tree d h x = .ok s' ∧ FixAt tree L m s' ∧ m < c.length + 2 := by
  obtain ⟨hs₁, hs₁b, -, -, hs₂, hc⟩ := hc
  have hxp : (h x).parent = p := H.parent_top (by simp)
  have Hp := At.cons_iff.1 H
  have hpg : (h p).parent = g := by
    have := Hp.parent_top (t := Frame.attach ⟨d₁, true, p, s₁⟩ (.node true a x b))
      (by cases d₁ <;> simp [Frame.attach, Tree.mk])
    simpa [Frame.attach] using this
  have hgy : (h g).child d.other = s₂.top tree.nil := by
    have h1 := Hp.ctx.1
    simp only at h1
    rw [h1, RbNode.of_child_other]
  have hyred : (h (s₂.top tree.nil)).red = s₂.isRed := by
    -- the sibling seen from its own place
    have Hg := At.cons_iff.1 Hp
    rw [Frame.attach, ← Tree.mk_other] at Hg
    exact (At.cons_iff (f := ⟨d.other, false, g, _⟩).2 Hg).red_top
  simp only [rbInsertSub, hxp, hpg, hgy, hyred]
  cases hs₂r : s₂.isRed with
  | true =>
    -- recolour, and climb two levels
    obtain ⟨a₂, y, b₂, rfl⟩ : ∃ a₂ y b₂, s₂ = .mk d true a₂ y b₂ := by
      cases s₂ with
      | nil => simp at hs₂r
      | node cs l y r =>
        obtain rfl : cs = true := hs₂r
        obtain ⟨a₂, b₂, hab⟩ := Tree.exists_mk d true l y r
        exact ⟨a₂, y, b₂, hab⟩
    have H₁ := At.cons_iff.1 (H.setRed_above false)
    have H₂ := H₁.setRed_sibling false
    have H₃ := At.cons_iff.1 (H₂.setRed_above true)
    obtain ⟨l, r, hlr⟩ : ∃ l r, Tree.mk d true (.mk d₁ false (.node true a x b) p s₁) g
        (.mk d false a₂ y b₂) = .node true l g r := by
      cases d with
      | left => exact ⟨_, _, rfl⟩
      | right => exact ⟨_, _, rfl⟩
    simp only [Frame.attach, hlr] at H₃
    have hRB : (Tree.node true l g r).RB (k + 1) := by
      rw [← hlr, Tree.RB_mk_red]
      obtain ⟨ha₂, hb₂, -⟩ := Tree.RB_mk_red.1 hs₂
      exact ⟨Tree.RB_mk_black_succ.2 ⟨ht, hs₁⟩, Tree.RB_mk_black_succ.2 ⟨ha₂, hb₂⟩, by simp,
        by simp⟩
    refine ⟨(((h.setRed p false).setRed y false).setRed g true, g), c.length, ?_,
      ⟨c, l, r, k + 1, H₃, rfl, hRB, hc, ?_⟩, by omega⟩
    · simp [hxp, hpg]
    · rw [← hL, ← hlr]
      refine Ctx.inorder_plug_congr c (Tree.inorder_mk_congr (Tree.inorder_mk_congr rfl rfl) ?_)
      exact Tree.inorder_mk_congr rfl rfl
  | false =>
    have htest : x = (h p).child d.other ↔ d₁ = d.other := by
      have := H.eq_child_iff (by simp) d.other
      simpa [Ctx.dir] using this
    by_cases hd : d₁ = d
    · -- an outer grandchild: one rotation at the grandparent
      subst hd
      have hne : ¬ x = (h p).child d₁.other := by
        rw [htest]
        exact (Dir.other_ne d₁).symm
      obtain ⟨h', hrot, H'⟩ := H.insert_outer
      refine ⟨(h', x), c.length + 1, ?_, ⟨_, a, b, k, H', rfl, ht, ?_, ?_⟩, by omega⟩
      · simp [hne, hxp, hpg, hrot]
      · exact ⟨Tree.RB_mk_red.2 ⟨hs₂, hs₁, hs₂r, hs₁b⟩, hc⟩
      · rw [← hL, Ctx.plug_cons, Ctx.plug_cons, Ctx.plug_cons]
        refine Ctx.inorder_plug_congr c ?_
        simp only [Frame.attach]
        rw [← Tree.mk_other d₁ false, ← Tree.mk_other d₁ false, ← Tree.mk_other d₁ true]
        exact (Tree.inorder_rotate d₁.other _ _ _ _ s₂ s₁ _ g p).symm
    · -- an inner grandchild: rotate it outwards first
      obtain rfl := Dir.eq_other_of_ne hd
      obtain ⟨a', b', hab⟩ := Tree.exists_mk d true a x b
      have H₁ : At h tree (⟨d, false, g, s₂⟩ :: c) (.mk d true s₁ p (.mk d true a' x b')) := by
        rw [← Tree.mk_other, ← hab]
        exact Hp
      obtain ⟨h₁, hrot₁, H₂, -⟩ := H₁.rotate
      have H₃ : At h₁ tree (⟨d, true, x, b'⟩ :: ⟨d, false, g, s₂⟩ :: c) (.mk d true s₁ p a') :=
        At.cons_iff.2 H₂
      obtain ⟨l, r, hlr⟩ : ∃ l r, Tree.mk d true s₁ p a' = .node true l p r := by
        cases d with
        | left => exact ⟨_, _, rfl⟩
        | right => exact ⟨_, _, rfl⟩
      rw [hlr] at H₃
      have hp₁ : (h₁ p).parent = x := H₃.parent_top (by simp)
      have hx₁ : (h₁ x).parent = g := by
        have := (At.cons_iff.1 H₃).parent_top (by cases d <;> simp [Frame.attach, Tree.mk])
        simpa [Frame.attach] using this
      obtain ⟨h', hrot, H'⟩ := H₃.insert_outer
      rw [hab, Tree.RB_mk_red] at ht
      refine ⟨(h', p), c.length + 1, ?_, ⟨_, l, r, k, H', rfl, ?_, ?_, ?_⟩, by omega⟩
      · rw [if_neg (by simp)]
        simp only [if_pos (htest.2 rfl), Res.pure_eq, Res.ok_bind, hrot₁, RbHeap.setRed_parent, hp₁,
          hx₁, hrot]
      · rw [← hlr, Tree.RB_mk_red]
        exact ⟨hs₁, ht.1, hs₁b, ht.2.2.1⟩
      · exact ⟨Tree.RB_mk_red.2 ⟨hs₂, ht.2.1, hs₂r, ht.2.2.2⟩, hc⟩
      · rw [← hL, hab, ← hlr, Ctx.plug_cons, Ctx.plug_cons, Ctx.plug_cons]
        refine Ctx.inorder_plug_congr c ?_
        cases d <;> simp [Frame.attach, Tree.mk]

/-- **The loop of `rb_insert`**: it ends below a black node. -/
theorem rbInsertFixup_spec {tree : RbTree α} {L : List α} {n : ℕ} {h : RbHeap α} {x : α}
    (H : FixAt tree L n (h, x)) {fuel : ℕ} (hfuel : n ≤ fuel) :
    ∃ s' m, rbInsertFixup fuel tree h x = .ok s' ∧ FixAt tree L m s' ∧
      (s'.1 (s'.1 s'.2).parent).red = false := by
  refine whileLoop_total (FixAt tree L) ?_ fuel n (h, x) H hfuel
  rintro n ⟨h, x⟩ ⟨c, a, b, k, Hc, rfl, ht, hc, hL⟩ hguard
  dsimp only at Hc ht hL hguard ⊢
  have hxp : (h x).parent = c.parent tree.root := Hc.parent_top (by simp)
  rw [hxp, Hc.red_parent] at hguard
  -- a red node above `x` has a black node above it
  cases c with
  | nil => simp at hguard
  | cons f₁ c =>
    obtain ⟨d₁, red₁, p, s₁⟩ := f₁
    obtain rfl : red₁ = true := hguard
    cases c with
    | nil => exact absurd rfl hc.2.2.1
    | cons f₂ c =>
      obtain ⟨d, red₂, g, s₂⟩ := f₂
      obtain rfl : red₂ = false := hc.2.2.2.1
      have Hp := At.cons_iff.1 Hc
      have hne : Frame.attach ⟨d₁, true, p, s₁⟩ (.node true a x b) ≠ .nil := by
        cases d₁ <;> simp [Frame.attach, Tree.mk]
      have hpg : (h p).parent = g := by
        have := Hp.parent_top hne
        simpa [Frame.attach] using this
      have hleft : p = (h g).left ↔ d = .left := by
        have := Hp.eq_child_iff hne .left
        simpa [Frame.attach, Ctx.dir, RbNode.child] using this
      simp only [hxp, Ctx.parent_cons, hpg]
      cases d with
      | left => rw [if_pos (hleft.2 rfl)]; exact rbInsertSub_spec Hc ht hc hL
      | right =>
        rw [if_neg (fun heq => by simpa using hleft.1 heq)]
        exact rbInsertSub_spec Hc ht hc hL

/-! ## The whole insertion -/

/-- **`rb_insert` on a well-formed tree.** -/
theorem rbInsert_spec {compare : α → α → ℤ} {tree : RbTree α} {h : RbHeap α} {t : Tree α}
    {node : α} (hcmp : TotalPreorder compare) (H : tree.WF compare h t)
    (hnode : node ∉ tree.nil :: tree.root :: t.inorder) {fuel : ℕ}
    (hfuel : t.inorder.length ≤ fuel) :
    ∃ (h' : RbHeap α) (t' : Tree α) (l r : List α), rbInsert fuel tree compare h node = .ok h' ∧
      tree.WF compare h' t' ∧ t.inorder = l ++ r ∧ t'.inorder = l ++ node :: r ∧
      (∀ a ∈ l, compare a node ≤ 0) ∧ ∀ b ∈ r, 0 < compare b node := by
  obtain ⟨h₁, c, hbin, hplug, H₁, hbefore, hafter⟩ :=
    rbInsertBinary_spec hcmp H.shape H.sorted hnode hfuel
  obtain ⟨m, hm⟩ := H.balanced
  rw [← hplug] at hm
  obtain ⟨k, hk, hck, -⟩ := Ctx.RB_of_plug hm (by rw [hplug]; exact H.black)
  obtain rfl : k = 0 := by simpa using hk
  have horder : t.inorder = c.before ++ c.after := by
    rw [← hplug, Ctx.inorder_plug, Tree.inorder_nil, List.append_nil]
  -- colour the new node red, and start the loop there
  have hL : (c.plug (.node true .nil node .nil)).inorder = c.before ++ node :: c.after := by
    rw [Ctx.inorder_plug]
    simp
  have hfix : FixAt tree (c.before ++ node :: c.after) c.length (h₁.setRed node true, node) :=
    ⟨c, .nil, .nil, 0, H₁.setRed (d := .left) true, rfl, by simp, hck, hL⟩
  have hlen : c.length ≤ fuel := by
    have h1 := Ctx.length_le_keys c
    have h2 := (Ctx.inorder_plug_perm c .nil).length_eq
    rw [hplug, Tree.inorder_nil, List.nil_append] at h2
    omega
  obtain ⟨⟨h₂, x⟩, m', hloop, ⟨c', a, b, k', H₂, -, ht, hc', hL'⟩, hblack⟩ :=
    rbInsertFixup_spec hfix hlen
  dsimp only at H₂ ht hL' hblack
  have hxp : (h₂ x).parent = c'.parent tree.root := H₂.parent_top (by simp)
  rw [hxp, H₂.red_parent] at hblack
  -- the tree the loop leaves, and its top node
  obtain ⟨m₁, hm₁⟩ := Ctx.RB_plug hc' ht fun _ => hblack
  have H₃ := At.root_iff.1 H₂
  have htop : (h₂ tree.root).left = (c'.plug (.node true a x b)).top tree.nil := H₃.ctx.1
  set t₂ := c'.plug (.node true a x b) with ht₂
  obtain ⟨ct, l, z, r, hz⟩ : ∃ ct l z r, t₂ = .node ct l z r := by
    cases ht₃ : t₂ with
    | nil => exact absurd ht₃ (Ctx.plug_ne_nil (by simp))
    | node ct l z r => exact ⟨ct, l, z, r, rfl⟩
  rw [hz] at H₃ htop hm₁ hL'
  have H₄ : At (h₂.setRed z false) tree [] (.node false l z r) := H₃.setRed (d := .left) false
  have hsort : (c.before ++ node :: c.after).Pairwise fun a b => compare a b ≤ 0 := by
    have hs := H.sorted
    rw [horder, List.pairwise_append] at hs
    rw [List.pairwise_append, List.pairwise_cons]
    have hnb : ∀ b ∈ c.after, compare node b ≤ 0 := fun b hb =>
      (hcmp.total node b).resolve_right (by have := hafter b hb; omega)
    refine ⟨hs.1, ⟨hnb, hs.2.1⟩, ?_⟩
    intro a ha b hb
    rcases List.mem_cons.1 hb with rfl | hb
    · exact hbefore a ha
    · exact hs.2.2 a ha b hb
  refine ⟨h₂.setRed z false, .node false l z r, c.before, c.after, ?_, ⟨H₄, rfl, ?_, ?_⟩, horder,
    hL', hbefore, hafter⟩
  · simp only [rbInsert, hbin, Res.ok_bind, hloop, htop, Tree.top_node]
    rw [assert_pos ⟨H₄.nilBlack, H₄.ctx.2.2⟩]
    rfl
  · cases ct with
    | false => exact ⟨m₁, hm₁⟩
    | true => exact ⟨m₁ + 1, hm₁.paint_black rfl⟩
  · have heq : (Tree.node false l z r).inorder = (Tree.node ct l z r).inorder := rfl
    rw [heq, hL']
    exact hsort

theorem rbInsert_mono {compare : α → α → ℤ} {tree : RbTree α} {h : RbHeap α} {node : α}
    {fuel fuel' : ℕ} (hle : fuel ≤ fuel') :
    (rbInsert fuel tree compare h node).Le (rbInsert fuel' tree compare h node) := by
  refine Res.Le.bind (Res.Le.bind (whileLoop_mono hle _) fun _ => Res.Le.refl _) fun _ => ?_
  exact Res.Le.bind (whileLoop_mono hle _) fun _ => Res.Le.refl _

/-- **Insertion keeps a red-black tree well-formed.**  It ends for every amount of fuel that is not
below the number of nodes, no assertion fires, the new node goes behind everything that compares
less or equal and before everything greater, and the tree stays flat. -/
theorem rbInsert_wellFormed {compare : α → α → ℤ} {tree : RbTree α} {h : RbHeap α} {t : Tree α}
    {node : α} (hcmp : TotalPreorder compare) (H : tree.WF compare h t)
    (hnode : node ∉ tree.nil :: tree.root :: t.inorder) :
    ∃ (h' : RbHeap α) (t' : Tree α) (l r : List α),
      (∀ fuel, t.inorder.length ≤ fuel → rbInsert fuel tree compare h node = .ok h') ∧
      tree.WF compare h' t' ∧ t.inorder = l ++ r ∧ t'.inorder = l ++ node :: r ∧
      (∀ a ∈ l, compare a node ≤ 0) ∧ (∀ b ∈ r, 0 < compare b node) ∧
      t'.height ≤ 2 * Nat.log 2 (t'.inorder.length + 1) := by
  obtain ⟨h', t', l, r, hrun, H', hl, hr, hle, hgt⟩ := rbInsert_spec hcmp H hnode le_rfl
  obtain ⟨n, hn⟩ := H'.balanced
  exact ⟨h', t', l, r, fun fuel hfuel => rbInsert_mono hfuel h' hrun, H', hl, hr, hle, hgt,
    hn.height_le_log H'.black⟩

/-- Three nodes `3`, `4`, `5` below the root sentinel `2`, with `1` as `nil`. -/
def sampleHeap : RbHeap ℕ := fun p =>
  match p with
  | 2 => ⟨false, 1, 4, 1⟩
  | 4 => ⟨false, 2, 3, 5⟩
  | 3 => ⟨true, 4, 1, 1⟩
  | 5 => ⟨true, 4, 1, 1⟩
  | _ => ⟨false, 1, 1, 1⟩

/-- Nodes ordered by their address. -/
def sampleCompare (a b : ℕ) : ℤ := a - b

theorem sampleHeap_wf : (⟨0, 1, 2⟩ : RbTree ℕ).WF sampleCompare sampleHeap
    (.node false (.node true .nil 3 .nil) 4 (.node true .nil 5 .nil)) where
  shape := ⟨⟨rfl, rfl, rfl⟩, ⟨rfl, ⟨rfl, trivial, trivial⟩, ⟨rfl, trivial, trivial⟩⟩, by decide,
    rfl⟩
  black := rfl
  balanced := ⟨1, by simp⟩
  sorted := by simp [sampleCompare]

theorem rbInsert_wellFormed_sample :
    ∃ (h' : RbHeap ℕ) (t' : Tree ℕ) (l r : List ℕ),
      (∀ fuel, 3 ≤ fuel → rbInsert fuel ⟨0, 1, 2⟩ sampleCompare sampleHeap 6 = .ok h') ∧
      (⟨0, 1, 2⟩ : RbTree ℕ).WF sampleCompare h' t' ∧ [3, 4, 5] = l ++ r ∧
      t'.inorder = l ++ 6 :: r ∧ (∀ a ∈ l, sampleCompare a 6 ≤ 0) ∧
      (∀ b ∈ r, 0 < sampleCompare b 6) ∧ t'.height ≤ 2 * Nat.log 2 (t'.inorder.length + 1) :=
  rbInsert_wellFormed ⟨fun a b => by rw [sampleCompare, sampleCompare]; omega,
    fun a b c => by simp only [sampleCompare]; omega⟩ sampleHeap_wf (by decide)

/-! ## A new tree -/

/-- `rb_tree_create` fails without a trace, or makes an empty tree out of three new objects. -/
theorem rbTreeCreate_spec (k : Pool α) (h : RbHeap α) (compare : α → α → ℤ) :
    (∃ k' h', rbTreeCreate k h = (none, k', h') ∧ k'.live = k.live ∧ ∀ q ∈ k.live, h' q = h q) ∨
    ∃ tree k' h', rbTreeCreate k h = (some tree, k', h') ∧
      [tree.addr, tree.nil, tree.root].Nodup ∧
      (∀ q ∈ [tree.addr, tree.nil, tree.root], q ∉ k.live) ∧
      k'.live = insert tree.root (insert tree.nil (insert tree.addr k.live)) ∧
      (∀ q ∈ k.live, h' q = h q) ∧ tree.WF compare h' .nil := by
  rcases k.take_cases with ⟨s, hs⟩ | ⟨addr, s, haddr, hs⟩
  · refine .inl ⟨{ k with script := s }, h, ?_, rfl, fun _ _ => rfl⟩
    simp only [rbTreeCreate, hs]
  generalize hk₁ : (⟨insert addr k.live, s⟩ : Pool α) = k₁ at hs
  have hlive₁ : k₁.live = insert addr k.live := by rw [← hk₁]
  rcases k₁.take_cases with ⟨s₁, hs₁⟩ | ⟨nil, s₁, hnil, hs₁⟩
  · refine .inl ⟨Pool.give { k₁ with script := s₁ } addr, h, ?_, ?_, fun _ _ => rfl⟩
    · simp only [rbTreeCreate, hs, hs₁]
    · rw [Pool.give_live, hlive₁]
      exact Finset.erase_insert haddr
  generalize hk₂ : (⟨insert nil k₁.live, s₁⟩ : Pool α) = k₂ at hs₁
  have hlive₂ : k₂.live = insert nil (insert addr k.live) := by rw [← hk₂, hlive₁]
  rw [hlive₁] at hnil
  have hq₁ : ∀ q ∈ k.live, q ≠ nil := by
    rintro q hq rfl
    exact hnil (Finset.mem_insert_of_mem hq)
  rcases k₂.take_cases with ⟨s₂, hs₂⟩ | ⟨root, s₂, hroot, hs₂⟩
  · refine .inl ⟨(Pool.give { k₂ with script := s₂ } nil).give addr,
      Function.update h nil ⟨false, nil, nil, nil⟩, ?_, ?_, ?_⟩
    · simp only [rbTreeCreate, hs, hs₁, hs₂]
    · rw [Pool.give_live, Pool.give_live, hlive₂, Finset.erase_insert hnil,
        Finset.erase_insert haddr]
    · intro q hq
      rw [Function.update_of_ne (hq₁ q hq)]
  · rw [hlive₂] at hroot
    have hq₂ : ∀ q ∈ k.live, q ≠ root := by
      rintro q hq rfl
      exact hroot (Finset.mem_insert_of_mem (Finset.mem_insert_of_mem hq))
    simp only [Finset.mem_insert, not_or] at hnil hroot
    refine .inr ⟨⟨addr, nil, root⟩, ⟨insert root k₂.live, s₂⟩,
      Function.update (Function.update h nil ⟨false, nil, nil, nil⟩) root ⟨false, nil, nil, nil⟩,
      ?_, ?_, ?_, ?_, ?_, ⟨⟨?_, ?_, ?_, ?_⟩, ?_, ?_, ?_⟩⟩
    · simp only [rbTreeCreate, hs, hs₁, hs₂]
    · simp only [List.nodup_cons, List.mem_cons, List.not_mem_nil, or_false, not_or, List.nodup_nil,
        not_false_eq_true, and_true]
      exact ⟨⟨Ne.symm hnil.1, Ne.symm hroot.2.1⟩, Ne.symm hroot.1⟩
    · intro q hq
      simp only [List.mem_cons, List.not_mem_nil, or_false] at hq
      rcases hq with rfl | rfl | rfl
      · exact haddr
      · exact hnil.2
      · exact hroot.2.2
    · rw [hlive₂]
    · intro q hq
      rw [Function.update_of_ne (hq₂ q hq), Function.update_of_ne (hq₁ q hq)]
    · rw [LinkedCtx, Function.update_self]
      exact ⟨rfl, rfl, rfl⟩
    · trivial
    · simpa using Ne.symm hroot.1
    · rw [Function.update_of_ne (Ne.symm hroot.1), Function.update_self]
    · rfl
    · exact ⟨0, by simp⟩
    · simp

end Ucore
