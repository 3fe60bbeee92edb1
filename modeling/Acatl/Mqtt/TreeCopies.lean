/-
Acatl.Mqtt.TreeCopies — writing to a copy of a subscription tree.

`clone` copies what the tree stores, the sessions of the root node apart;
no filter ends there. `Rooted` is what holds of every tree that was built by
`addFilter` and `clone`: the root is the only node of its class.

  `mem_sessionsAt_clone`       a copy stores the same below the root.
  `mem_sessionsAt_addFilters`  what a tree stores after a list of filters was
                               added for one session.
  `Built.clone_eq`             a tree that was built by `addFilter` calls is
                               equal to its copy.
-/
import Acatl.Mqtt.TreeContents

namespace Acatl.Mqtt

variable {σ : Type}

namespace SubscriptionNode

/-! ## §1 Trees with one root -/

/-- No node is of the root's class. -/
inductive Unrooted : SubscriptionNode σ → Prop
  | multi (s : Finset σ) : Unrooted (.multiLevelWildCard s)
  | intermediate {kind : NodeKind} {s : Finset σ} {nodes : NodeMap σ} (hkind : kind ≠ .root)
      (hchild : ∀ k c, nodes.find? k = some c → Unrooted c) :
      Unrooted (.intermediate kind s nodes)

/-- The node is the root of a tree. -/
structure Rooted (n : SubscriptionNode σ) : Prop where
  shaped : n.Shaped
  root : ∃ s nodes, n = .intermediate .root s nodes ∧
    ∀ k c, nodes.find? k = some c → c.Unrooted

theorem Rooted.inner {n : SubscriptionNode σ} (h : n.Rooted) : n.isMulti = false := by
  obtain ⟨s, nodes, rfl, -⟩ := h.root
  rfl

theorem unrooted_create (l : Bytes) : Unrooted (create l : SubscriptionNode σ) := by
  unfold create
  split
  · exact .multi ∅
  · split <;> exact .intermediate (by simp) (by simp [NodeMap.find?])

theorem rooted_new : (SubscriptionTree.new : SubscriptionTree σ).rootNode.Rooted where
  shaped := grown_new.shaped
  root := ⟨∅, .nil, rfl, by simp [NodeMap.find?]⟩

/-! ## §2 clone -/

theorem isMulti_clone (n : SubscriptionNode σ) : n.clone.isMulti = n.isMulti := by
  cases n with
  | multiLevelWildCard s => rfl
  | intermediate kind s nodes => cases kind <;> rfl

/-- A copy is of the same class, and has copies for children. -/
theorem clone_intermediate (kind : NodeKind) (s : Finset σ) (nodes : NodeMap σ) :
    (intermediate kind s nodes).clone =
      .intermediate kind (if kind = .root then ∅ else s) nodes.clone := by
  cases kind <;> rfl

theorem find?_clone (nodes : NodeMap σ) (k : Bytes) :
    nodes.clone.find? k = (nodes.find? k).map clone := by
  match nodes with
  | .nil => rfl
  | .cons key node rest =>
    simp only [NodeMap.clone, NodeMap.find?]
    split
    · rfl
    · exact find?_clone rest k

theorem find?_clone_some {nodes : NodeMap σ} {k : Bytes} {c' : SubscriptionNode σ}
    (h : nodes.clone.find? k = some c') : ∃ c, nodes.find? k = some c ∧ c' = c.clone := by
  rw [find?_clone] at h
  obtain ⟨c, hc, rfl⟩ := Option.map_eq_some_iff.mp h
  exact ⟨c, hc, rfl⟩

theorem Shaped.clone {n : SubscriptionNode σ} (h : n.Shaped) : n.clone.Shaped := by
  induction h with
  | multi s => exact .multi s
  | @intermediate kind s nodes hkey hchild ih =>
    rw [clone_intermediate]
    refine .intermediate ?_ ?_
    · intro k c' hc'
      obtain ⟨c, hc, rfl⟩ := find?_clone_some hc'
      rw [isMulti_clone]
      exact hkey k c hc
    · intro k c' hc'
      obtain ⟨c, hc, rfl⟩ := find?_clone_some hc'
      exact ih k c hc

theorem Unrooted.clone {n : SubscriptionNode σ} (h : n.Unrooted) : n.clone.Unrooted := by
  induction h with
  | multi s => exact .multi s
  | @intermediate kind s nodes hkind hchild ih =>
    rw [clone_intermediate]
    refine .intermediate hkind ?_
    intro k c' hc'
    obtain ⟨c, hc, rfl⟩ := find?_clone_some hc'
    exact ih k c hc

theorem Rooted.clone {n : SubscriptionNode σ} (h : n.Rooted) : n.clone.Rooted where
  shaped := h.shaped.clone
  root := by
    obtain ⟨s, nodes, rfl, hchild⟩ := h.root
    refine ⟨∅, nodes.clone, rfl, ?_⟩
    intro k c' hc'
    obtain ⟨c, hc, rfl⟩ := find?_clone_some hc'
    exact (hchild k c hc).clone

theorem Unrooted.sessionsAt_clone {n : SubscriptionNode σ} (h : n.Unrooted) (path : List Bytes) :
    n.clone.sessionsAt path = n.sessionsAt path := by
  induction path generalizing n with
  | nil =>
    cases h with
    | multi s => rfl
    | intermediate hkind _ =>
      rw [clone_intermediate, if_neg hkind]
      simp
  | cons k ks ih =>
    cases h with
    | multi s => rfl
    | @intermediate kind s nodes _ hchild =>
      rw [clone_intermediate]
      cases hc : nodes.find? k with
      | none =>
        have hclone : nodes.clone.find? k = none := by rw [find?_clone, hc]; rfl
        rw [sessionsAt_cons_none hc, sessionsAt_cons_none hclone]
      | some c =>
        have hclone : nodes.clone.find? k = some c.clone := by rw [find?_clone, hc]; rfl
        rw [sessionsAt_cons_some hc, sessionsAt_cons_some hclone, ih (hchild k c hc)]

/-- **A copy of a tree stores the same, but nothing in its root node.** -/
theorem mem_sessionsAt_clone {n : SubscriptionNode σ} (h : n.Rooted) (path : List Bytes) (x : σ) :
    x ∈ n.clone.sessionsAt path ↔ path ≠ [] ∧ x ∈ n.sessionsAt path := by
  obtain ⟨s, nodes, rfl, hchild⟩ := h.root
  cases path with
  | nil => simp [clone_intermediate]
  | cons k ks =>
    rw [clone_intermediate, mem_sessionsAt_cons, mem_sessionsAt_cons]
    constructor
    · intro ⟨c', hc', hx⟩
      obtain ⟨c, hc, rfl⟩ := find?_clone_some hc'
      rw [(hchild k c hc).sessionsAt_clone] at hx
      exact ⟨by simp, c, hc, hx⟩
    · intro ⟨_, c, hc, hx⟩
      refine ⟨c.clone, by rw [find?_clone, hc]; rfl, ?_⟩
      rwa [(hchild k c hc).sessionsAt_clone]

/-! ## §3 Insertion -/

variable [DecidableEq σ]

theorem Unrooted.addLevels (x : σ) {p : List Bytes} {n : SubscriptionNode σ} (h : n.Unrooted) :
    (n.addLevels x p).Unrooted := by
  induction p generalizing n with
  | nil =>
    cases h with
    | multi s => exact .multi _
    | intermediate hkind hchild => exact .intermediate hkind hchild
  | cons l ls ih =>
    cases h with
    | multi s => exact .multi s
    | @intermediate kind s nodes hkind hchild =>
      refine .intermediate hkind ?_
      intro k c hc
      rw [NodeMap.find?_insert] at hc
      split at hc
      · obtain rfl := Option.some.inj hc
        cases hl : nodes.find? l with
        | none => exact ih (unrooted_create l)
        | some c => exact ih (hchild l c hl)
      · exact hchild k c hc

theorem Rooted.addLevels (x : σ) {p : List Bytes} {n : SubscriptionNode σ} (h : n.Rooted) :
    (n.addLevels x p).Rooted where
  shaped := h.shaped.addLevels x
  root := by
    obtain ⟨s, nodes, rfl, hchild⟩ := h.root
    cases p with
    | nil => exact ⟨insert x s, nodes, rfl, hchild⟩
    | cons l ls =>
      refine ⟨s, _, rfl, ?_⟩
      intro k c hc
      rw [NodeMap.find?_insert] at hc
      split at hc
      · obtain rfl := Option.some.inj hc
        cases hl : nodes.find? l with
        | none => exact (unrooted_create l).addLevels x
        | some c => exact (hchild l c hl).addLevels x
      · exact hchild k c hc

end SubscriptionNode

namespace SubscriptionTree

variable [DecidableEq σ]

/-- **What a tree stores after valid filters were added for one session.** -/
theorem mem_sessionsAt_addFilters {fs : List TopicFilter} (hvalid : ∀ f ∈ fs, f.Valid) (x : σ)
    (tree : SubscriptionTree σ) (h : tree.rootNode.Rooted) :
    let tree' := fs.foldl (fun tree f => (tree.addFilter f x none).2.2) tree
    tree'.rootNode.Rooted ∧ ∀ path y, y ∈ tree'.rootNode.sessionsAt path ↔
      y ∈ tree.rootNode.sessionsAt path ∨ (y = x ∧ ∃ f ∈ fs, f.levels = path) := by
  induction fs generalizing tree with
  | nil => exact ⟨h, by simp⟩
  | cons f fs ih =>
    have hf : f.Valid := hvalid f (by simp)
    have hadd := addFilter_eq_addLevels h.shaped h.inner hf x none
    obtain ⟨hrooted, hmem⟩ := ih (fun g hg => hvalid g (by simp [hg]))
      ⟨tree.rootNode.addLevels x f.levels⟩ (h.addLevels x)
    intro tree'
    have htree : tree' = fs.foldl (fun tree f => (tree.addFilter f x none).2.2)
        ⟨tree.rootNode.addLevels x f.levels⟩ := by
      show fs.foldl _ (tree.addFilter f x none).2.2 = _
      rw [hadd]
    rw [htree]
    refine ⟨hrooted, ?_⟩
    intro path y
    rw [hmem, SubscriptionNode.sessionsAt_addLevels x h.shaped hf.hashLast (fun _ => h.inner)]
    by_cases hpath : path = f.levels
    · subst hpath
      simp only [if_true, Finset.mem_insert, List.exists_mem_cons_iff]
      tauto
    · have hne : f.levels ≠ path := Ne.symm hpath
      simp [hpath, hne]

end SubscriptionTree

/-! ## §4 Copies are equal -/

mutual

/-- No node is of the root's class, not even one that is not found. -/
def SubscriptionNode.Rootless : SubscriptionNode σ → Prop
  | .multiLevelWildCard _ => True
  | .intermediate kind _ nodes => kind ≠ .root ∧ nodes.Rootless

def NodeMap.Rootless : NodeMap σ → Prop
  | .nil => True
  | .cons _ node rest => node.Rootless ∧ rest.Rootless

end

mutual

theorem SubscriptionNode.Rootless.clone_eq : ∀ {n : SubscriptionNode σ}, n.Rootless → n.clone = n
  | .multiLevelWildCard _, _ => rfl
  | .intermediate kind _ nodes, h => by
    rw [SubscriptionNode.Rootless] at h
    rw [SubscriptionNode.clone_intermediate, if_neg h.1, NodeMap.Rootless.clone_eq h.2]

theorem NodeMap.Rootless.clone_eq : ∀ {nodes : NodeMap σ}, nodes.Rootless → nodes.clone = nodes
  | .nil, _ => rfl
  | .cons _ _ _, h => by
    rw [NodeMap.Rootless] at h
    rw [NodeMap.clone, SubscriptionNode.Rootless.clone_eq h.1, NodeMap.Rootless.clone_eq h.2]

end

theorem NodeMap.Rootless.find {nodes : NodeMap σ} (h : nodes.Rootless) {k : Bytes}
    {c : SubscriptionNode σ} (hc : nodes.find? k = some c) : c.Rootless := by
  match nodes with
  | .nil => cases hc
  | .cons key node rest =>
    rw [NodeMap.Rootless] at h
    rw [NodeMap.find?] at hc
    split at hc
    · rw [← Option.some.inj hc]
      exact h.1
    · exact NodeMap.Rootless.find h.2 hc

theorem NodeMap.Rootless.insert {nodes : NodeMap σ} (h : nodes.Rootless) (k : Bytes)
    {c : SubscriptionNode σ} (hc : c.Rootless) : (nodes.insert k c).Rootless := by
  match nodes with
  | .nil => exact ⟨hc, trivial⟩
  | .cons key node rest =>
    rw [NodeMap.Rootless] at h
    rw [NodeMap.insert]
    split
    · exact ⟨hc, h.2⟩
    · exact ⟨h.1, NodeMap.Rootless.insert h.2 k hc⟩

theorem SubscriptionNode.rootless_create (l : Bytes) : (create l : SubscriptionNode σ).Rootless := by
  unfold create
  split
  · trivial
  · split
    · exact ⟨by simp, trivial⟩
    · exact ⟨by simp, trivial⟩

section

variable [DecidableEq σ] (x : σ)

/-- The children of a node after an insertion below it. -/
theorem NodeMap.Rootless.addLevels {nodes : NodeMap σ} (h : nodes.Rootless) (l : Bytes)
    {ls : List Bytes} (hadd : ∀ c : SubscriptionNode σ, c.Rootless → (c.addLevels x ls).Rootless) :
    (nodes.insert l (((nodes.find? l).getD (.create l)).addLevels x ls)).Rootless := by
  refine h.insert l (hadd _ ?_)
  cases hc : nodes.find? l with
  | none => exact SubscriptionNode.rootless_create l
  | some c => exact h.find hc

theorem SubscriptionNode.Rootless.addLevels {n : SubscriptionNode σ} (h : n.Rootless)
    (p : List Bytes) : (n.addLevels x p).Rootless := by
  induction p generalizing n with
  | nil =>
    cases n with
    | multiLevelWildCard s => trivial
    | intermediate kind s nodes => exact h
  | cons l ls ih =>
    cases n with
    | multiLevelWildCard s => trivial
    | intermediate kind s nodes =>
      rw [SubscriptionNode.Rootless] at h
      exact ⟨h.1, h.2.addLevels x l fun c hc => ih hc⟩

end

namespace SubscriptionTree

/-- A tree as `addFilter` calls build it: nothing ends at the root. -/
structure Built (tree : SubscriptionTree σ) : Prop where
  shaped : tree.rootNode.Shaped
  root : ∃ nodes, tree.rootNode = .intermediate .root ∅ nodes ∧ nodes.Rootless

theorem Built.inner {tree : SubscriptionTree σ} (h : tree.Built) :
    tree.rootNode.isMulti = false := by
  obtain ⟨nodes, hroot, -⟩ := h.root
  rw [hroot]
  rfl

theorem built_new : (new : SubscriptionTree σ).Built := ⟨grown_new.shaped, .nil, rfl, trivial⟩

/-- **A tree that was built by `addFilter` is equal to its copy.** -/
theorem Built.clone_eq {tree : SubscriptionTree σ} (h : tree.Built) : tree.clone = tree := by
  obtain ⟨nodes, hroot, hnodes⟩ := h.root
  obtain ⟨rootNode⟩ := tree
  have hroot : rootNode = .intermediate .root ∅ nodes := hroot
  subst hroot
  show (⟨.intermediate .root ∅ nodes.clone⟩ : SubscriptionTree σ) = _
  rw [hnodes.clone_eq]

variable [DecidableEq σ]

theorem Built.addFilter {tree : SubscriptionTree σ} (h : tree.Built) {f : TopicFilter}
    (hf : f.Valid) (x : σ) (ec : ErrorCode) : (tree.addFilter f x ec).2.2.Built := by
  rw [addFilter_eq_addLevels h.shaped h.inner hf x ec]
  refine ⟨h.shaped.addLevels x, ?_⟩
  obtain ⟨nodes, hroot, hnodes⟩ := h.root
  rw [hroot]
  cases hlevels : f.levels with
  | nil => exact absurd hlevels f.levels_ne_nil
  | cons l ls => exact ⟨_, rfl, hnodes.addLevels x l fun c hc => hc.addLevels x ls⟩

end SubscriptionTree

end Acatl.Mqtt
