/-
Acatl.Lib.DepthFirst — the nodes below a node of a tree, each before those
below it, and the walk through them with a stack.

  `below`      the nodes down to a depth, by recursion on the depth.
  `Tree`       what makes the nodes from a root on a tree of finite height:
               every node has one parent, and a rank above that of its children.
  `next`       one step of the walk: down to the first child, or on to the next
               sibling of the innermost node that has one.
  `ahead`      what a stack has still to meet, the current node first.

A step of the walk takes the first node away from what is ahead (`ahead_next`).
Nothing here is about files.
-/
import Mathlib.Data.List.Nodup
import Mathlib.Logic.Relation

namespace Acatl.Lib.DepthFirst

variable {α : Type} (children : α → List α)

/-! ## §1 The nodes below a node -/

/-- The nodes below a node, down to a depth. -/
def below : Nat → α → List α
  | 0, _ => []
  | depth + 1, a => (children a).flatMap fun c => c :: below depth c

/-- Nodes, with those below them. -/
def subtrees (depth : Nat) (as : List α) : List α := as.flatMap fun a => a :: below children depth a

@[simp] theorem subtrees_nil (depth : Nat) : subtrees children depth [] = [] := rfl

theorem subtrees_cons (depth : Nat) (a : α) (as : List α) :
    subtrees children depth (a :: as) = a :: below children depth a ++ subtrees children depth as :=
  List.flatMap_cons

/-- The nodes are those of a tree. -/
structure Tree (node : α → Prop) (rank : α → Nat) : Prop where
  closed : ∀ a c, node a → c ∈ children a → node c
  rank_lt : ∀ a c, node a → c ∈ children a → rank c < rank a
  nodup : ∀ a, node a → (children a).Nodup
  parent : ∀ a b c, node a → node b → c ∈ children a → c ∈ children b → a = b

variable {children} {node : α → Prop} {rank : α → Nat} {depth : Nat} {a b c : α}

/-- Enough depth: more of it changes nothing. -/
theorem Tree.below_succ (h : Tree children node rank) (ha : node a) (hle : rank a ≤ depth) :
    below children (depth + 1) a = below children depth a := by
  induction depth generalizing a with
  | zero =>
    have hnone : children a = [] := by
      cases hchildren : children a with
      | nil => rfl
      | cons c cs =>
        have := h.rank_lt a c ha (by simp [hchildren])
        omega
    simp [below, hnone]
  | succ depth ih =>
    rw [below, below]
    refine List.flatMap_congr fun c hc => ?_
    have := h.rank_lt a c ha hc
    rw [ih (h.closed a c ha hc) (by omega)]

theorem Tree.below_eq (h : Tree children node rank) (ha : node a) (hle : rank a ≤ depth) :
    below children depth a = subtrees children depth (children a) := by
  rw [← h.below_succ ha hle]
  rfl

/-- `b` is a child of `a`, or is below one. -/
def Below (children : α → List α) : α → α → Prop := Relation.TransGen fun a c => c ∈ children a

theorem Tree.node_of_below (h : Tree children node rank) (ha : node a) (hb : Below children a b) :
    node b := by
  induction hb with
  | single hc => exact h.closed a _ ha hc
  | tail _ hc ih => exact h.closed _ _ ih hc

theorem Tree.rank_lt_of_below (h : Tree children node rank) (ha : node a)
    (hb : Below children a b) : rank b < rank a := by
  induction hb with
  | single hc => exact h.rank_lt a _ ha hc
  | tail hab hc ih => exact Nat.lt_trans (h.rank_lt _ _ (h.node_of_below ha hab) hc) ih

theorem Tree.mem_below (h : Tree children node rank) (ha : node a) (hle : rank a ≤ depth) :
    b ∈ below children depth a ↔ Below children a b := by
  induction depth generalizing a with
  | zero =>
    refine ⟨fun hb => by simp [below] at hb, fun hb => ?_⟩
    have := h.rank_lt_of_below ha hb
    omega
  | succ depth ih =>
    have hchild (c : α) (hc : c ∈ children a) :
        b ∈ below children depth c ↔ Below children c b := by
      have := h.rank_lt a c ha hc
      exact ih (h.closed a c ha hc) (by omega)
    rw [below, List.mem_flatMap]
    constructor
    · intro hb
      obtain ⟨c, hc, hb⟩ := hb
      obtain rfl | hb := List.mem_cons.mp hb
      · exact .single hc
      · exact .head hc ((hchild c hc).mp hb)
    · intro hb
      obtain ⟨c, hc, hb⟩ := Relation.TransGen.head'_iff.mp hb
      refine ⟨c, hc, List.mem_cons.mpr ?_⟩
      obtain rfl | hb := Relation.reflTransGen_iff_eq_or_transGen.mp hb
      · exact .inl rfl
      · exact .inr ((hchild c hc).mpr hb)

/-- A node is at or below one child only. -/
theorem Tree.child_unique (h : Tree children node rank) (ha : node a) {c' : α}
    (hc : c ∈ children a) (hc' : c' ∈ children a)
    (hb : Relation.ReflTransGen (fun a c => c ∈ children a) c b)
    (hb' : Relation.ReflTransGen (fun a c => c ∈ children a) c' b) : c = c' := by
  have hnode {x y : α} (hx : x ∈ children a)
      (hy : Relation.ReflTransGen (fun a c => c ∈ children a) x y) : node y ∧ y ≠ a := by
    have hxnode := h.closed a x ha hx
    have hlt := h.rank_lt a x ha hx
    obtain rfl | hbelow := Relation.reflTransGen_iff_eq_or_transGen.mp hy
    · exact ⟨hxnode, fun heq => by subst heq; omega⟩
    · have := h.rank_lt_of_below hxnode hbelow
      exact ⟨h.node_of_below hxnode hbelow, fun heq => by subst heq; omega⟩
  induction hb with
  | refl =>
    cases hb' with
    | refl => rfl
    | tail hy hchild =>
      obtain ⟨hynode, hne⟩ := hnode hc' hy
      exact absurd (h.parent _ _ _ hynode ha hchild hc) hne
  | @tail y z hy hchild ih =>
    obtain ⟨hynode, hne⟩ := hnode hc hy
    cases hb' with
    | refl => exact absurd (h.parent _ _ _ hynode ha hchild hc') hne
    | tail hy' hchild' =>
      obtain ⟨hynode', -⟩ := hnode hc' hy'
      obtain rfl := h.parent _ _ _ hynode hynode' hchild hchild'
      exact ih hy'

/-- **No node is listed twice.** -/
theorem Tree.nodup_below (h : Tree children node rank) (ha : node a) (hle : rank a ≤ depth) :
    (below children depth a).Nodup := by
  induction depth generalizing a with
  | zero => exact List.nodup_nil
  | succ depth ih =>
    have hchild (c : α) (hc : c ∈ children a) : node c ∧ rank c ≤ depth := by
      have := h.rank_lt a c ha hc
      exact ⟨h.closed a c ha hc, by omega⟩
    have hreach {c b : α} (hc : c ∈ children a) (hb : b ∈ c :: below children depth c) :
        Relation.ReflTransGen (fun a c => c ∈ children a) c b := by
      obtain rfl | hb := List.mem_cons.mp hb
      · exact .refl
      · exact ((h.mem_below (hchild c hc).1 (hchild c hc).2).mp hb).to_reflTransGen
    rw [below, List.nodup_flatMap]
    constructor
    · intro c hc
      obtain ⟨hcnode, hcle⟩ := hchild c hc
      refine List.nodup_cons.mpr ⟨fun hself => ?_, ih hcnode hcle⟩
      have := h.rank_lt_of_below hcnode ((h.mem_below hcnode hcle).mp hself)
      omega
    · refine (h.nodup a ha).imp_of_mem fun hc hc' hne => ?_
      intro b hb hb'
      exact hne (h.child_unique ha hc hc' (hreach hc hb) (hreach hc' hb'))

/-! ## §2 The walk with a stack -/

/-- A node of the way to the current one, and its siblings still to come; the
innermost first. -/
abbrev Stack (α : Type) := List (α × List α)

/-- On to the next sibling of the innermost node that has one. -/
def skip : Stack α → Stack α
  | [] => []
  | (_, []) :: stack => skip stack
  | (_, c :: cs) :: stack => (c, cs) :: stack

/-- One step. -/
def next (children : α → List α) : Stack α → Stack α
  | [] => []
  | (a, rest) :: stack =>
    match children a with
    | [] => skip ((a, rest) :: stack)
    | c :: cs => (c, cs) :: (a, rest) :: stack

/-- What has still to come, the current node first. -/
def ahead (children : α → List α) (depth : Nat) : Stack α → List α
  | [] => []
  | (a, rest) :: stack =>
    subtrees children depth (a :: rest) ++ stack.flatMap fun f => subtrees children depth f.2

theorem ahead_skip (stack : Stack α) :
    ahead children depth (skip stack) = stack.flatMap fun f => subtrees children depth f.2 := by
  induction stack with
  | nil => rfl
  | cons f stack ih =>
    obtain ⟨a, rest⟩ := f
    cases rest with
    | nil => simpa [skip] using ih
    | cons c cs => rfl

/-- **A step meets the next of the nodes that are ahead.** -/
theorem Tree.ahead_next (h : Tree children node rank) {stack : Stack α}
    (hstack : ∀ f ∈ stack.head?, node f.1 ∧ rank f.1 ≤ depth) :
    ahead children depth (next children stack) = (ahead children depth stack).tail := by
  cases stack with
  | nil => rfl
  | cons f stack =>
    obtain ⟨a, rest⟩ := f
    obtain ⟨ha, hle⟩ := hstack (a, rest) (by simp)
    have htail : (ahead children depth ((a, rest) :: stack)).tail =
        below children depth a ++ (((a, rest) :: stack).flatMap fun f =>
          subtrees children depth f.2) := by
      simp [ahead, subtrees_cons]
    rw [htail, h.below_eq ha hle]
    cases hchildren : children a with
    | nil => simp [next, hchildren, ahead_skip]
    | cons c cs => simp [next, hchildren, ahead]

/-- The current node, and what comes behind it. -/
theorem ahead_eq (stack : Stack α) :
    ahead children depth stack =
      (stack.head?.map Prod.fst).toList ++ (ahead children depth stack).tail := by
  cases stack with
  | nil => rfl
  | cons f stack => simp [ahead, subtrees_cons]

theorem mem_tail_skip {stack : Stack α} {f : α × List α} (h : f ∈ (skip stack).tail) :
    f ∈ stack := by
  induction stack with
  | nil => cases h
  | cons g stack ih =>
    obtain ⟨a, rest⟩ := g
    cases rest with
    | nil => exact List.mem_cons_of_mem _ (ih h)
    | cons c cs => exact List.mem_cons_of_mem _ h

/-- A step keeps the rest of the way. -/
theorem mem_tail_next {stack : Stack α} {f : α × List α} (h : f ∈ (next children stack).tail) :
    f ∈ stack := by
  cases stack with
  | nil => cases h
  | cons g stack =>
    obtain ⟨a, rest⟩ := g
    rw [next] at h
    split at h
    · exact mem_tail_skip h
    · exact h

end Acatl.Lib.DepthFirst
