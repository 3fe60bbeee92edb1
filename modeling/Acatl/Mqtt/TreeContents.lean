/-
Acatl.Mqtt.TreeContents — what a subscription tree stores.

A node is read by paths: `nodeAt` follows a list of levels through the
`_nodes` maps, and `sessionsAt` is the session set of the node it ends at.
`addLevels` inserts a session under a path without any iterator;
`addFilter_eq_addLevels` says that `addFilter` does exactly this with the
levels its iterator enumerates, so that the rest is about paths only.

`Grown subs node` is the representation invariant of a tree built by
`addFilter` calls: the sessions under a path are those subscribed with
exactly these levels, and the nodes are the prefixes of subscribed paths.
`addFilters_grown` shows that every sequence of valid filters is accepted
and keeps it.
-/
import Acatl.Mqtt.SubscriptionTree
import Acatl.Mqtt.TopicLevels

namespace Acatl.Mqtt

variable {σ : Type}

namespace SubscriptionNode

/-! ## §1 Paths -/

/-- The node a path leads to. -/
def nodeAt : SubscriptionNode σ → List Bytes → Option (SubscriptionNode σ)
  | n, [] => some n
  | .intermediate _ _ nodes, k :: ks => (nodes.find? k).bind (nodeAt · ks)
  | .multiLevelWildCard _, _ :: _ => none

/-- The sessions stored at the end of a path. -/
def sessionsAt (n : SubscriptionNode σ) (path : List Bytes) : Finset σ :=
  match n.nodeAt path with
  | some m => m.sessions
  | none => ∅

def isMulti : SubscriptionNode σ → Bool
  | .intermediate .. => false
  | .multiLevelWildCard _ => true

@[simp] theorem sessions_intermediate (kind : NodeKind) (s : Finset σ) (nodes : NodeMap σ) :
    (intermediate kind s nodes).sessions = s := rfl
@[simp] theorem sessions_multi (s : Finset σ) : (multiLevelWildCard s).sessions = s := rfl
@[simp] theorem isMulti_intermediate (kind : NodeKind) (s : Finset σ) (nodes : NodeMap σ) :
    (intermediate kind s nodes).isMulti = false := rfl
@[simp] theorem isMulti_multi (s : Finset σ) : (multiLevelWildCard s).isMulti = true := rfl
@[simp] theorem nodeAt_nil (n : SubscriptionNode σ) : n.nodeAt [] = some n := by
  cases n <;> rfl
@[simp] theorem sessionsAt_nil (n : SubscriptionNode σ) : n.sessionsAt [] = n.sessions := by
  simp [sessionsAt]
@[simp] theorem nodeAt_multi (s : Finset σ) (k : Bytes) (ks : List Bytes) :
    (multiLevelWildCard s).nodeAt (k :: ks) = none := rfl

theorem nodeAt_cons (kind : NodeKind) (s : Finset σ) (nodes : NodeMap σ) (k : Bytes)
    (ks : List Bytes) :
    (intermediate kind s nodes).nodeAt (k :: ks) = (nodes.find? k).bind (nodeAt · ks) := rfl

theorem nodeAt_cons_some {kind : NodeKind} {s : Finset σ} {nodes : NodeMap σ} {k : Bytes}
    {c : SubscriptionNode σ} (h : nodes.find? k = some c) (ks : List Bytes) :
    (intermediate kind s nodes).nodeAt (k :: ks) = c.nodeAt ks := by
  rw [nodeAt_cons, h, Option.bind_some]

theorem nodeAt_cons_none {kind : NodeKind} {s : Finset σ} {nodes : NodeMap σ} {k : Bytes}
    (h : nodes.find? k = none) (ks : List Bytes) :
    (intermediate kind s nodes).nodeAt (k :: ks) = none := by
  rw [nodeAt_cons, h, Option.bind_none]

theorem sessionsAt_cons_some {kind : NodeKind} {s : Finset σ} {nodes : NodeMap σ} {k : Bytes}
    {c : SubscriptionNode σ} (h : nodes.find? k = some c) (ks : List Bytes) :
    (intermediate kind s nodes).sessionsAt (k :: ks) = c.sessionsAt ks := by
  simp only [sessionsAt, nodeAt_cons_some h]

theorem sessionsAt_cons_none {kind : NodeKind} {s : Finset σ} {nodes : NodeMap σ} {k : Bytes}
    (h : nodes.find? k = none) (ks : List Bytes) :
    (intermediate kind s nodes).sessionsAt (k :: ks) = ∅ := by
  simp only [sessionsAt, nodeAt_cons_none h]

@[simp] theorem sessionsAt_multi (s : Finset σ) (k : Bytes) (ks : List Bytes) :
    (multiLevelWildCard s).sessionsAt (k :: ks) = ∅ := rfl

/-- A session under a path below the root is under a path of a child. -/
theorem mem_sessionsAt_cons {kind : NodeKind} {s : Finset σ} {nodes : NodeMap σ} {k : Bytes}
    {ks : List Bytes} {x : σ} :
    x ∈ (intermediate kind s nodes).sessionsAt (k :: ks) ↔
      ∃ c, nodes.find? k = some c ∧ x ∈ c.sessionsAt ks := by
  cases h : nodes.find? k with
  | none => simp [sessionsAt_cons_none h]
  | some c => simp [sessionsAt_cons_some h]

theorem nodeAt_cons_isSome {kind : NodeKind} {s : Finset σ} {nodes : NodeMap σ} {k : Bytes}
    {ks : List Bytes} : ((intermediate kind s nodes).nodeAt (k :: ks)).isSome = true ↔
      ∃ c, nodes.find? k = some c ∧ (c.nodeAt ks).isSome = true := by
  cases h : nodes.find? k with
  | none => simp [nodeAt_cons_none h]
  | some c => simp [nodeAt_cons_some h]

/-! ## §2 The shape of a tree

`"#"` nodes are leaves of their own class, and nothing else is. -/

inductive Shaped : SubscriptionNode σ → Prop
  | multi (s : Finset σ) : Shaped (.multiLevelWildCard s)
  | intermediate {kind : NodeKind} {s : Finset σ} {nodes : NodeMap σ}
      (hkey : ∀ k c, nodes.find? k = some c → (c.isMulti = true ↔ k = hashLevel))
      (hchild : ∀ k c, nodes.find? k = some c → Shaped c) : Shaped (.intermediate kind s nodes)

section

variable {kind : NodeKind} {s : Finset σ} {nodes : NodeMap σ} {k : Bytes} {c : SubscriptionNode σ}

theorem Shaped.child (h : Shaped (.intermediate kind s nodes)) (hc : nodes.find? k = some c) :
    Shaped c := by
  cases h with
  | intermediate _ hchild => exact hchild k c hc

theorem Shaped.isMulti_iff (h : Shaped (.intermediate kind s nodes))
    (hc : nodes.find? k = some c) : c.isMulti = true ↔ k = hashLevel := by
  cases h with
  | intermediate hkey _ => exact hkey k c hc

/-- Nothing is stored behind a `"#"`. -/
theorem Shaped.nil_of_hash {n : SubscriptionNode σ} (h : n.Shaped) {v : List Bytes} {x : σ}
    (hx : x ∈ n.sessionsAt (hashLevel :: v)) : v = [] := by
  cases n with
  | multiLevelWildCard s => simp at hx
  | intermediate kind s nodes =>
    obtain ⟨c, hc, hx⟩ := mem_sessionsAt_cons.mp hx
    have hmulti := (h.isMulti_iff hc).mpr rfl
    cases c with
    | intermediate _ _ _ => simp at hmulti
    | multiLevelWildCard s' =>
      cases v with
      | nil => rfl
      | cons _ _ => simp at hx

theorem Shaped.not_multi (h : Shaped (.intermediate kind s nodes)) (hc : nodes.find? k = some c)
    (hk : k ≠ hashLevel) : c.isMulti = false :=
  Bool.eq_false_iff.mpr fun hm => hk ((h.isMulti_iff hc).mp hm)

end

theorem isMulti_create (l : Bytes) :
    (create l : SubscriptionNode σ).isMulti = true ↔ l = hashLevel := by
  unfold create
  split <;> rename_i h
  · simp [h]
  · split <;> simp [h]

theorem shaped_create (l : Bytes) : Shaped (create l : SubscriptionNode σ) := by
  unfold create
  split
  · exact .multi ∅
  · split <;> exact .intermediate (by simp [NodeMap.find?]) (by simp [NodeMap.find?])

theorem sessionsAt_create (l : Bytes) (q : List Bytes) :
    (create l : SubscriptionNode σ).sessionsAt q = ∅ := by
  cases q <;> unfold create <;> split <;> (try split) <;>
    simp [sessionsAt, nodeAt_cons, NodeMap.find?]

theorem nodeAt_create_isSome (l : Bytes) (q : List Bytes) :
    ((create l : SubscriptionNode σ).nodeAt q).isSome = true ↔ q = [] := by
  cases q <;> unfold create <;> split <;> (try split) <;>
    simp [nodeAt_cons, NodeMap.find?]

/-- The child an insertion descends into: the stored one or a new one. -/
theorem childFor {kind : NodeKind} {s : Finset σ} {nodes : NodeMap σ}
    (h : Shaped (.intermediate kind s nodes)) (l : Bytes) :
    Shaped ((nodes.find? l).getD (create l)) ∧
      (((nodes.find? l).getD (create l)).isMulti = true ↔ l = hashLevel) := by
  cases hc : nodes.find? l with
  | none => exact ⟨shaped_create l, isMulti_create l⟩
  | some c => exact ⟨h.child hc, h.isMulti_iff hc⟩

/-- On the way of a path with `"#"` at its end only, it is no `"#"` node before that. -/
theorem childFor_not_multi {kind : NodeKind} {s : Finset σ} {nodes : NodeMap σ}
    (h : Shaped (.intermediate kind s nodes)) {l : Bytes} {ls : List Bytes}
    (hp : HashLast (l :: ls)) (hne : ls ≠ []) :
    ((nodes.find? l).getD (create l)).isMulti = false := by
  obtain ⟨-, hmulti⟩ := childFor h l
  exact Bool.eq_false_iff.mpr fun hm => hne (hp.head (hmulti.mp hm))

/-! ## §3 Insertion by levels -/

variable [DecidableEq σ]

/-- Insert a session under a path. A path through a `"#"` node, which no
valid filter has, changes nothing. -/
def addLevels (x : σ) : List Bytes → SubscriptionNode σ → SubscriptionNode σ
  | [], .intermediate kind s nodes => .intermediate kind (insert x s) nodes
  | [], .multiLevelWildCard s => .multiLevelWildCard (insert x s)
  | l :: ls, .intermediate kind s nodes =>
    .intermediate kind s (nodes.insert l (addLevels x ls ((nodes.find? l).getD (create l))))
  | _ :: _, .multiLevelWildCard s => .multiLevelWildCard s

theorem isMulti_addLevels (x : σ) (p : List Bytes) (n : SubscriptionNode σ) :
    (n.addLevels x p).isMulti = n.isMulti := by
  cases n <;> cases p <;> rfl

theorem Shaped.addLevels (x : σ) {p : List Bytes} {n : SubscriptionNode σ} (h : Shaped n) :
    Shaped (n.addLevels x p) := by
  induction p generalizing n with
  | nil =>
    cases h with
    | multi s => exact .multi _
    | intermediate hkey hchild => exact .intermediate hkey hchild
  | cons l ls ih =>
    cases n with
    | multiLevelWildCard s => exact h
    | intermediate kind s nodes =>
      obtain ⟨hshaped, hmulti⟩ := childFor h l
      refine .intermediate (fun k c hc => ?_) (fun k c hc => ?_) <;>
        rw [NodeMap.find?_insert] at hc <;> split at hc
      · rename_i hk
        obtain rfl := Option.some.inj hc
        rw [isMulti_addLevels, hmulti, hk]
      · exact h.isMulti_iff hc
      · obtain rfl := Option.some.inj hc
        exact ih hshaped
      · exact h.child hc

/-- An insertion below a level leaves the other levels alone. -/
theorem nodeAt_addLevels_cons (x : σ) (l : Bytes) (ls : List Bytes) (kind : NodeKind)
    (s : Finset σ) (nodes : NodeMap σ) (k : Bytes) (ks : List Bytes) :
    ((intermediate kind s nodes).addLevels x (l :: ls)).nodeAt (k :: ks) =
      if k = l then (((nodes.find? l).getD (create l)).addLevels x ls).nodeAt ks
      else (intermediate kind s nodes).nodeAt (k :: ks) := by
  rw [SubscriptionNode.addLevels, nodeAt_cons, NodeMap.find?_insert]
  split
  · rw [Option.bind_some]
  · rw [nodeAt_cons]

theorem sessionsAt_addLevels (x : σ) {p : List Bytes} {n : SubscriptionNode σ} (h : Shaped n)
    (hp : HashLast p) (hn : p ≠ [] → n.isMulti = false) (q : List Bytes) :
    (n.addLevels x p).sessionsAt q =
      if q = p then insert x (n.sessionsAt q) else n.sessionsAt q := by
  induction p generalizing n q with
  | nil =>
    cases n with
    | multiLevelWildCard s => cases q <;> simp [SubscriptionNode.addLevels]
    | intermediate kind s nodes =>
      cases q with
      | nil => simp [SubscriptionNode.addLevels]
      | cons k ks => simp [SubscriptionNode.addLevels, sessionsAt, nodeAt_cons]
  | cons l ls ih =>
    cases n with
    | multiLevelWildCard s => simp at hn
    | intermediate kind s nodes =>
      cases q with
      | nil => simp [SubscriptionNode.addLevels]
      | cons k ks =>
        by_cases hk : k = l
        · subst hk
          obtain ⟨hshaped, -⟩ := childFor h k
          have hchild := childFor_not_multi h hp
          have hold : ((nodes.find? k).getD (create k)).sessionsAt ks =
              (intermediate kind s nodes).sessionsAt (k :: ks) := by
            cases hc : nodes.find? k with
            | none => rw [sessionsAt_cons_none hc]; exact sessionsAt_create k ks
            | some c => rw [sessionsAt_cons_some hc]; rfl
          have hnew : ((intermediate kind s nodes).addLevels x (k :: ls)).sessionsAt (k :: ks) =
              (((nodes.find? k).getD (create k)).addLevels x ls).sessionsAt ks := by
            simp only [sessionsAt, nodeAt_addLevels_cons, if_true]
          rw [hnew, ih hshaped hp.tail hchild, hold]
          simp
        · have hne : k :: ks ≠ l :: ls := fun e => hk (List.cons.inj e).1
          simp only [sessionsAt, nodeAt_addLevels_cons, if_neg hk, if_neg hne]

theorem nodeAt_addLevels_isSome (x : σ) {p : List Bytes} {n : SubscriptionNode σ} (h : Shaped n)
    (hp : HashLast p) (hn : p ≠ [] → n.isMulti = false) (q : List Bytes) :
    ((n.addLevels x p).nodeAt q).isSome = true ↔ (n.nodeAt q).isSome = true ∨ q <+: p := by
  induction p generalizing n q with
  | nil =>
    cases n <;> cases q <;> simp [SubscriptionNode.addLevels, nodeAt_cons]
  | cons l ls ih =>
    cases n with
    | multiLevelWildCard s => simp at hn
    | intermediate kind s nodes =>
      cases q with
      | nil => simp
      | cons k ks =>
        by_cases hk : k = l
        · subst hk
          obtain ⟨hshaped, -⟩ := childFor h k
          have hchild := childFor_not_multi h hp
          rw [nodeAt_addLevels_cons, if_pos rfl, ih hshaped hp.tail hchild,
            List.cons_prefix_cons]
          cases hc : nodes.find? k with
          | none =>
            rw [nodeAt_cons_none hc, Option.getD_none, nodeAt_create_isSome]
            constructor
            · rintro (rfl | hpre)
              · exact .inr ⟨rfl, List.nil_prefix⟩
              · exact .inr ⟨rfl, hpre⟩
            · rintro (hfalse | ⟨-, hpre⟩)
              · simp at hfalse
              · exact .inr hpre
          | some c => simp [nodeAt_cons_some hc]
        · rw [nodeAt_addLevels_cons, if_neg hk, List.cons_prefix_cons]
          simp [hk]

/-! ## §4 addFilter inserts by levels -/

/-- `addFilter` with the iterator at a cursor inserts under the cursor's levels
as far as it comes, and fails if `"#"` is not the last of them. -/
theorem addFilter_at (x : σ) : ∀ (ahead : List Bytes) (level : Bytes) (fuel : Nat)
    (n : SubscriptionNode σ) (p : ImplPtr) (heap : ImplHeap) (ec : ErrorCode),
    Shaped n → n.isMulti = false → ahead.length < fuel → CursorAt heap p ⟨level, ahead⟩ →
    ∃ heap' added, n.addFilter x fuel (some p) heap ec =
      ⟨added, if added then ec else some .invalidTopicFilter, n.addLevels x (level :: ahead),
        heap'⟩ ∧ (added = true ↔ HashLast (level :: ahead)) := by
  intro ahead
  induction ahead with
  | nil =>
    intro level fuel n p heap ec hn hm hfuel hcur
    obtain ⟨fuel, rfl⟩ : ∃ k, fuel = k + 1 := ⟨fuel - 1, by simp at hfuel; omega⟩
    cases n with
    | multiLevelWildCard s => simp at hm
    | intermediate kind s nodes =>
      refine ⟨heap, true, ?_, iff_of_true rfl (hashLast_single level)⟩
      have hlevel : (heap p).current = level := hcur.level
      simp only [addFilter, hcur.increment_end, hlevel]
      -- the iterator is at the end, so the session goes into the child itself
      cases hc : (nodes.find? level).getD (create level) <;>
        simp [addFilter, SubscriptionNode.addLevels, hc]
  | cons m ms ih =>
    intro level fuel n p heap ec hn hm hfuel hcur
    obtain ⟨fuel, rfl⟩ : ∃ k, fuel = k + 1 := ⟨fuel - 1, by simp at hfuel; omega⟩
    cases n with
    | multiLevelWildCard s => simp at hm
    | intermediate kind s nodes =>
      obtain ⟨heap₁, hinc, hnext⟩ := hcur.increment_cons
      have hlevel : (heap p).current = level := hcur.level
      obtain ⟨hshaped, hmulti⟩ := childFor hn level
      rw [hashLast_cons_cons]
      by_cases hhash : level = hashLevel
      · -- the child refuses the levels behind it
        cases hchild : (nodes.find? level).getD (create level) with
        | intermediate kind' s' nodes' =>
          rw [hchild] at hmulti
          simp [hhash] at hmulti
        | multiLevelWildCard s' =>
          refine ⟨heap₁, false, ?_, iff_of_false (by simp) fun h => h.1 hhash⟩
          simp only [addFilter, hinc, hlevel, hchild, SubscriptionNode.addLevels]
          rfl
      · have hchild : ((nodes.find? level).getD (create level)).isMulti = false :=
          Bool.eq_false_iff.mpr fun h => hhash (hmulti.mp h)
        obtain ⟨heap', added, hrec, hadded⟩ := ih m fuel _ p heap₁ ec hshaped hchild
          (by simpa using hfuel) hnext
        refine ⟨heap', added, ?_, hadded.trans (and_iff_right hhash).symm⟩
        simp only [addFilter, hinc, hlevel, hrec, SubscriptionNode.addLevels]

end SubscriptionNode

/-! ## §5 Trees built by addFilter -/

/-- What a node holds after the subscriptions `subs`. -/
structure Grown (subs : List (TopicFilter × σ)) (n : SubscriptionNode σ) : Prop where
  shaped : n.Shaped
  inner : n.isMulti = false
  stored : ∀ path x, x ∈ n.sessionsAt path ↔ ∃ f, (f, x) ∈ subs ∧ f.levels = path
  nodes : ∀ path, (n.nodeAt path).isSome = true ↔
    path = [] ∨ ∃ f x, (f, x) ∈ subs ∧ path <+: f.levels

theorem grown_new :
    Grown ([] : List (TopicFilter × σ)) (SubscriptionTree.new : SubscriptionTree σ).rootNode where
  shaped := .intermediate (by simp [NodeMap.find?]) (by simp [NodeMap.find?])
  inner := rfl
  stored path x := by
    cases path <;> simp [SubscriptionTree.new, SubscriptionNode.sessionsAt,
      SubscriptionNode.nodeAt_cons, NodeMap.find?]
  nodes path := by
    cases path <;> simp [SubscriptionTree.new, SubscriptionNode.nodeAt_cons, NodeMap.find?]

variable [DecidableEq σ]

theorem Grown.addLevels {subs : List (TopicFilter × σ)} {n : SubscriptionNode σ}
    (h : Grown subs n) {f : TopicFilter} (hf : f.Valid) (x : σ) :
    Grown (subs ++ [(f, x)]) (n.addLevels x f.levels) where
  shaped := h.shaped.addLevels x
  inner := by rw [SubscriptionNode.isMulti_addLevels]; exact h.inner
  stored path y := by
    rw [SubscriptionNode.sessionsAt_addLevels x h.shaped hf.hashLast (fun _ => h.inner)]
    have hold := h.stored path y
    split
    · rename_i hpath
      subst hpath
      rw [Finset.mem_insert, hold]
      constructor
      · rintro (rfl | ⟨g, hg, hl⟩)
        · exact ⟨f, by simp, rfl⟩
        · exact ⟨g, by simp [hg], hl⟩
      · rintro ⟨g, hg, hl⟩
        rcases List.mem_append.mp hg with hg | hg
        · exact .inr ⟨g, hg, hl⟩
        · simp only [List.mem_singleton, Prod.mk.injEq] at hg
          exact .inl hg.2
    · rename_i hpath
      rw [hold]
      constructor
      · rintro ⟨g, hg, hl⟩
        exact ⟨g, by simp [hg], hl⟩
      · rintro ⟨g, hg, hl⟩
        rcases List.mem_append.mp hg with hg | hg
        · exact ⟨g, hg, hl⟩
        · simp only [List.mem_singleton, Prod.mk.injEq] at hg
          exact absurd (hg.1 ▸ hl).symm hpath
  nodes path := by
    rw [SubscriptionNode.nodeAt_addLevels_isSome x h.shaped hf.hashLast (fun _ => h.inner),
      h.nodes path]
    constructor
    · rintro ((hnil | ⟨g, y, hg, hpre⟩) | hpre)
      · exact .inl hnil
      · exact .inr ⟨g, y, by simp [hg], hpre⟩
      · exact .inr ⟨f, x, by simp, hpre⟩
    · rintro (hnil | ⟨g, y, hg, hpre⟩)
      · exact .inl (.inl hnil)
      · rcases List.mem_append.mp hg with hg | hg
        · exact .inl (.inr ⟨g, y, hg, hpre⟩)
        · simp only [List.mem_singleton, Prod.mk.injEq] at hg
          exact .inr (hg.1 ▸ hpre)

namespace SubscriptionTree

/-- **`addFilter` inserts under the levels of the filter**, and fails if one of
them but the last is `"#"`. -/
theorem addFilter_eq {tree : SubscriptionTree σ} (hshaped : tree.rootNode.Shaped)
    (hinner : tree.rootNode.isMulti = false) (f : TopicFilter) (x : σ) (ec : ErrorCode) :
    ∃ added, tree.addFilter f x ec = (added, if added then ec else some .invalidTopicFilter,
      ⟨tree.rootNode.addLevels x f.levels⟩) ∧ (added = true ↔ HashLast f.levels) := by
  have hlen := length_levels_le f.filter
  have hcur := CursorAt.begin f.filter 0 callHeap
  obtain ⟨heap', added, hadd, hadded⟩ := SubscriptionNode.addFilter_at x
    (Cursor.ofText f.filter).ahead (Cursor.ofText f.filter).level (f.filter.length + 1)
    tree.rootNode 0 _ ec hshaped hinner
    (by simp only [levels, List.length_cons] at hlen; omega) hcur
  have hbegin : f.begin 0 callHeap = (some 0, (f.begin 0 callHeap).2) := rfl
  refine ⟨added, ?_, hadded⟩
  rw [addFilter, hbegin]
  exact Prod.ext (congrArg AddResult.added hadd) (Prod.ext (congrArg AddResult.ec hadd)
    (congrArg (fun r => (⟨r.node⟩ : SubscriptionTree σ)) hadd))

/-- **`addFilter` with a valid filter succeeds and inserts under its levels.** -/
theorem addFilter_eq_addLevels {tree : SubscriptionTree σ} (hshaped : tree.rootNode.Shaped)
    (hinner : tree.rootNode.isMulti = false) {f : TopicFilter} (hf : f.Valid) (x : σ)
    (ec : ErrorCode) :
    tree.addFilter f x ec = (true, ec, ⟨tree.rootNode.addLevels x f.levels⟩) := by
  obtain ⟨added, hadd, hadded⟩ := addFilter_eq hshaped hinner f x ec
  rw [hadd, hadded.mpr hf.hashLast]
  rfl

/-- Every sequence of valid filters is accepted, and the tree then holds what
was subscribed. -/
theorem addFilters_grown {subs : List (TopicFilter × σ)} (hvalid : ∀ p ∈ subs, p.1.Valid) :
    ∃ tree, new.addFilters subs = some tree ∧ Grown subs tree.rootNode := by
  have hrun : ∀ (rest done : List (TopicFilter × σ)) (tree : SubscriptionTree σ),
      (∀ p ∈ rest, p.1.Valid) → Grown done tree.rootNode →
      ∃ tree', tree.addFilters rest = some tree' ∧ Grown (done ++ rest) tree'.rootNode := by
    intro rest
    induction rest with
    | nil => intro done tree _ h; exact ⟨tree, rfl, by simpa using h⟩
    | cons p rest ih =>
      intro done tree hv h
      have hf : p.1.Valid := hv p (by simp)
      obtain ⟨tree', hadd, hgrown⟩ := ih (done ++ [p]) ⟨tree.rootNode.addLevels p.2 p.1.levels⟩
        (fun q hq => hv q (by simp [hq])) (h.addLevels hf p.2)
      refine ⟨tree', ?_, by simpa using hgrown⟩
      rw [addFilters, addFilter_eq_addLevels h.shaped h.inner hf]
      simpa using hadd
  simpa using hrun subs [] new hvalid grown_new

end SubscriptionTree

end Acatl.Mqtt
