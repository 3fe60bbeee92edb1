/-
Acatl.Mqtt.TreeWalk — `match` without the heap.

`walk` is the recursion of `match` on cursors: it returns what a node
collects and where the shared iterator object stands afterwards. That second
part is what the source hands from one child to the next, so the `"+"` child
of a node may be walked from a later level than the literal child was.

  `matchTopic_walk`   `match` refines `walk`.
  `mem_walk_end`,
  `mem_walk_cons`     the three lookups of `doMatch`, as a disjunction.
  `walk_suffix`       the object only moves forward.
  `walk_visits`       whatever is collected is stored under a path that is
                      not longer than the levels left.
-/
import Acatl.Mqtt.FilterSemantics
import Acatl.Mqtt.TreeContents
import Mathlib.Data.Finset.Lattice.Lemmas

namespace Acatl.Mqtt

variable {σ : Type}

/-- The levels from the cursor on. -/
def Cursor.levels (c : Cursor) : List Bytes := c.level :: c.ahead

/-- What matching from a node collects, and where the shared iterator object
stands then. -/
structure Walk (σ : Type) where
  sessions : Finset σ
  cursor : Cursor

variable [DecidableEq σ]

/-! ## §1 walk -/

mutual

/-- `match` at a cursor. -/
def SubscriptionNode.walk : SubscriptionNode σ → Cursor → Walk σ
  | .multiLevelWildCard s, c => ⟨s, c⟩
  | .intermediate kind s nodes, ⟨l, []⟩ =>
    -- the iterator is null in the children, which add their own sessions
    ⟨(SubscriptionNode.intermediate kind s nodes).sessionsAt [l] ∪
      (SubscriptionNode.intermediate kind s nodes).sessionsAt [hashLevel] ∪
      (SubscriptionNode.intermediate kind s nodes).sessionsAt [plusLevel], ⟨l, []⟩⟩
  | .intermediate _ _ nodes, ⟨l, m :: ms⟩ =>
    let literal := nodes.walkAt l ⟨m, ms⟩
    let multi := nodes.walkAt hashLevel literal.cursor
    let single := nodes.walkAt plusLevel multi.cursor
    ⟨literal.sessions ∪ multi.sessions ∪ single.sessions, single.cursor⟩

/-- The same below the child under a key, if there is one. -/
def NodeMap.walkAt : NodeMap σ → Bytes → Cursor → Walk σ
  | .nil, _, c => ⟨∅, c⟩
  | .cons key node rest, k, c => if key = k then node.walk c else rest.walkAt k c

end

section

variable {kind : NodeKind} {s : Finset σ} {nodes : NodeMap σ} {l m k : Bytes} {ms : List Bytes}
  {n : SubscriptionNode σ} {c : Cursor} {x : σ}

@[simp] theorem walk_multi (s : Finset σ) (c : Cursor) :
    (SubscriptionNode.multiLevelWildCard s).walk c = ⟨s, c⟩ := by
  rw [SubscriptionNode.walk]

theorem walk_end : ((SubscriptionNode.intermediate kind s nodes).walk ⟨l, []⟩) =
    ⟨(SubscriptionNode.intermediate kind s nodes).sessionsAt [l] ∪
      (SubscriptionNode.intermediate kind s nodes).sessionsAt [hashLevel] ∪
      (SubscriptionNode.intermediate kind s nodes).sessionsAt [plusLevel], ⟨l, []⟩⟩ := by
  rw [SubscriptionNode.walk]

theorem walk_cons : ((SubscriptionNode.intermediate kind s nodes).walk ⟨l, m :: ms⟩) =
    let literal := nodes.walkAt l ⟨m, ms⟩
    let multi := nodes.walkAt hashLevel literal.cursor
    let single := nodes.walkAt plusLevel multi.cursor
    ⟨literal.sessions ∪ multi.sessions ∪ single.sessions, single.cursor⟩ := by
  rw [SubscriptionNode.walk]

end

theorem walkAt_none {k : Bytes} : ∀ {nodes : NodeMap σ}, nodes.find? k = none → ∀ c : Cursor,
    nodes.walkAt k c = ⟨∅, c⟩
  | .nil, _, c => by rw [NodeMap.walkAt]
  | .cons key node rest, h, c => by
    rw [NodeMap.find?] at h
    split at h
    · simp at h
    · rename_i hk
      rw [NodeMap.walkAt, if_neg hk, walkAt_none h]

theorem walkAt_some {k : Bytes} {n : SubscriptionNode σ} : ∀ {nodes : NodeMap σ},
    nodes.find? k = some n → ∀ c : Cursor, nodes.walkAt k c = n.walk c
  | .nil, h, c => by simp [NodeMap.find?] at h
  | .cons key node rest, h, c => by
    rw [NodeMap.find?] at h
    split at h
    · rename_i hk
      obtain rfl := Option.some.inj h
      rw [NodeMap.walkAt, if_pos hk]
    · rename_i hk
      rw [NodeMap.walkAt, if_neg hk, walkAt_some h]

/-! ## §2 match refines walk -/

/-- With the iterator at the end, `match` adds the node's own sessions. -/
theorem matchTopic_null (n : SubscriptionNode σ) (st : MatchState σ) :
    (n.matchTopic none st).2 = st.insert n.sessions := by
  cases n <;> simp [SubscriptionNode.matchTopic]

theorem matchAt_null (kind : NodeKind) (s : Finset σ) (k : Bytes) (st : MatchState σ) :
    ∀ nodes : NodeMap σ, (nodes.matchAt k none st).2 =
      st.insert ((SubscriptionNode.intermediate kind s nodes).sessionsAt [k])
  | .nil => by
    simp [NodeMap.matchAt, MatchState.insert, SubscriptionNode.sessionsAt,
      SubscriptionNode.nodeAt_cons, NodeMap.find?]
  | .cons key node rest => by
    rw [NodeMap.matchAt]
    split
    · rename_i hk
      rw [matchTopic_null, SubscriptionNode.sessionsAt_cons_some (c := node)
        (by simp [NodeMap.find?, hk]), SubscriptionNode.sessionsAt_nil]
    · rename_i hk
      rw [matchAt_null kind s k st rest]
      simp only [SubscriptionNode.sessionsAt, SubscriptionNode.nodeAt_cons, NodeMap.find?,
        if_neg hk]

mutual

/-- **`match` refines `walk`**: from a heap whose object stands at the cursor it
collects what `walk` collects, and leaves the object where `walk` says. -/
theorem matchTopic_walk (n : SubscriptionNode σ) (c : Cursor) (p : ImplPtr) (heap : ImplHeap)
    (found : Finset σ) (h : CursorAt heap p c) :
    ∃ heap', (n.matchTopic (some p) ⟨heap, found⟩).2 = ⟨heap', found ∪ (n.walk c).sessions⟩ ∧
      CursorAt heap' p (n.walk c).cursor := by
  match n, c, h with
  | .multiLevelWildCard s, c, h =>
    refine ⟨heap, ?_, ?_⟩
    · simp [SubscriptionNode.matchTopic, MatchState.insert]
    · simpa using h
  | .intermediate kind s nodes, ⟨l, []⟩, h =>
    refine ⟨heap, ?_, ?_⟩
    · have hlevel : (heap p).current = l := h.level
      simp only [SubscriptionNode.matchTopic, h.increment_end, hlevel, matchAt_null kind s,
        MatchState.insert, walk_end, Finset.union_assoc]
    · rw [walk_end]
      exact h
  | .intermediate kind s nodes, ⟨l, m :: ms⟩, h =>
    obtain ⟨heap₁, hinc, h₁⟩ := h.increment_cons
    have hlevel : (heap p).current = l := h.level
    obtain ⟨heap₂, hliteral, h₂⟩ := matchAt_walkAt nodes l ⟨m, ms⟩ p heap₁ found h₁
    obtain ⟨heap₃, hmulti, h₃⟩ := matchAt_walkAt nodes hashLevel _ p heap₂
      (found ∪ (nodes.walkAt l ⟨m, ms⟩).sessions) h₂
    obtain ⟨heap₄, hsingle, h₄⟩ := matchAt_walkAt nodes plusLevel _ p heap₃
      (found ∪ (nodes.walkAt l ⟨m, ms⟩).sessions ∪
        (nodes.walkAt hashLevel (nodes.walkAt l ⟨m, ms⟩).cursor).sessions) h₃
    refine ⟨heap₄, ?_, ?_⟩
    · simp only [SubscriptionNode.matchTopic, hinc, hlevel, hliteral, hmulti, hsingle, walk_cons]
      simp only [Finset.union_assoc]
    · rw [walk_cons]
      exact h₄

theorem matchAt_walkAt (nodes : NodeMap σ) (k : Bytes) (c : Cursor) (p : ImplPtr)
    (heap : ImplHeap) (found : Finset σ) (h : CursorAt heap p c) :
    ∃ heap', (nodes.matchAt k (some p) ⟨heap, found⟩).2 =
        ⟨heap', found ∪ (nodes.walkAt k c).sessions⟩ ∧
      CursorAt heap' p (nodes.walkAt k c).cursor := by
  match nodes with
  | .nil => exact ⟨heap, by simp [NodeMap.matchAt, NodeMap.walkAt], by simpa [NodeMap.walkAt]⟩
  | .cons key node rest =>
    rw [NodeMap.matchAt, NodeMap.walkAt]
    split
    · exact matchTopic_walk node c p heap found h
    · exact matchAt_walkAt rest k c p heap found h

end

/-- The sessions `match` finds for a topic are those `walk` collects. -/
theorem sessionsFor_eq_walk (tree : SubscriptionTree σ) (t : TopicName) :
    tree.sessionsFor t = (tree.rootNode.walk (Cursor.ofText t.name)).sessions := by
  obtain ⟨heap', hmatch, -⟩ := matchTopic_walk tree.rootNode (Cursor.ofText t.name) 0 _ ∅
    (CursorAt.begin t.name 0 SubscriptionTree.callHeap)
  have hsessions := congrArg MatchState.sessions hmatch
  rw [Finset.empty_union] at hsessions
  exact hsessions

/-! ## §3 What walk collects -/

section

variable {kind : NodeKind} {s : Finset σ} {nodes : NodeMap σ} {l m k : Bytes} {ms : List Bytes}
  {c : Cursor} {x : σ}

theorem mem_walkAt : x ∈ (nodes.walkAt k c).sessions ↔
    ∃ n, nodes.find? k = some n ∧ x ∈ (n.walk c).sessions := by
  cases h : nodes.find? k with
  | none => simp [walkAt_none h]
  | some n => simp [walkAt_some h]

theorem mem_walk_end : x ∈ ((SubscriptionNode.intermediate kind s nodes).walk ⟨l, []⟩).sessions ↔
    x ∈ (SubscriptionNode.intermediate kind s nodes).sessionsAt [l] ∨
    x ∈ (SubscriptionNode.intermediate kind s nodes).sessionsAt [hashLevel] ∨
    x ∈ (SubscriptionNode.intermediate kind s nodes).sessionsAt [plusLevel] := by
  rw [walk_end, Finset.mem_union, Finset.mem_union, or_assoc]

/-- The `"#"` child adds its sessions and leaves the object alone. -/
theorem SubscriptionNode.Shaped.walkAt_hash
    (h : (SubscriptionNode.intermediate kind s nodes).Shaped) (c : Cursor) :
    nodes.walkAt hashLevel c =
      ⟨(SubscriptionNode.intermediate kind s nodes).sessionsAt [hashLevel], c⟩ := by
  cases hc : nodes.find? hashLevel with
  | none => rw [walkAt_none hc, SubscriptionNode.sessionsAt_cons_none hc]
  | some n =>
    rw [walkAt_some hc, SubscriptionNode.sessionsAt_cons_some hc]
    have hmulti := (h.isMulti_iff hc).mpr rfl
    cases n with
    | multiLevelWildCard s' => simp
    | intermediate _ _ _ => simp at hmulti

theorem SubscriptionNode.Shaped.mem_walk_cons
    (h : (SubscriptionNode.intermediate kind s nodes).Shaped) :
    x ∈ ((SubscriptionNode.intermediate kind s nodes).walk ⟨l, m :: ms⟩).sessions ↔
      x ∈ (nodes.walkAt l ⟨m, ms⟩).sessions ∨
      x ∈ (SubscriptionNode.intermediate kind s nodes).sessionsAt [hashLevel] ∨
      x ∈ (nodes.walkAt plusLevel (nodes.walkAt l ⟨m, ms⟩).cursor).sessions := by
  simp only [walk_cons, h.walkAt_hash, Finset.mem_union, or_assoc]

/-- The sessions of a `"#"` child are collected from every cursor. -/
theorem SubscriptionNode.Shaped.mem_walk_of_hash {n : SubscriptionNode σ} (h : n.Shaped)
    (hx : x ∈ n.sessionsAt [hashLevel]) (c : Cursor) : x ∈ (n.walk c).sessions := by
  match n, c with
  | .multiLevelWildCard s, c => simp at hx
  | .intermediate kind s nodes, ⟨l, []⟩ => exact mem_walk_end.mpr (.inr (.inl hx))
  | .intermediate kind s nodes, ⟨l, m :: ms⟩ => exact h.mem_walk_cons.mpr (.inr (.inl hx))

end

/-! ## §4 Where the object stands afterwards -/

/-- The three lookups of an inner node, if none of them moves the object back. -/
theorem walk_cons_suffix {kind : NodeKind} {s : Finset σ} {nodes : NodeMap σ}
    (h : ∀ k c, (nodes.walkAt k c).cursor.levels <:+ c.levels) (l m : Bytes) (ms : List Bytes) :
    ((SubscriptionNode.intermediate kind s nodes).walk ⟨l, m :: ms⟩).cursor.levels <:+ m :: ms := by
  rw [walk_cons]
  have hliteral := h l ⟨m, ms⟩
  have hmulti := h hashLevel (nodes.walkAt l ⟨m, ms⟩).cursor
  have hsingle := h plusLevel (nodes.walkAt hashLevel (nodes.walkAt l ⟨m, ms⟩).cursor).cursor
  exact (hsingle.trans hmulti).trans hliteral

mutual

/-- The object only moves forward. -/
theorem walk_suffix (n : SubscriptionNode σ) (c : Cursor) :
    (n.walk c).cursor.levels <:+ c.levels := by
  match n, c with
  | .multiLevelWildCard s, c => simp
  | .intermediate kind s nodes, ⟨l, []⟩ => rw [walk_end]
  | .intermediate kind s nodes, ⟨l, m :: ms⟩ =>
    have hmoved : ((SubscriptionNode.intermediate kind s nodes).walk ⟨l, m :: ms⟩).cursor.levels <:+
        m :: ms := walk_cons_suffix (walkAt_suffix nodes) l m ms
    exact hmoved.trans (List.suffix_cons l _)

theorem walkAt_suffix (nodes : NodeMap σ) (k : Bytes) (c : Cursor) :
    (nodes.walkAt k c).cursor.levels <:+ c.levels := by
  match nodes with
  | .nil => simp [NodeMap.walkAt]
  | .cons key node rest =>
    rw [NodeMap.walkAt]
    split
    · exact walk_suffix node c
    · exact walkAt_suffix rest k c

end

/-- Before the last level an inner node moves the object, whatever children
it has. -/
theorem walk_advances {n : SubscriptionNode σ} (hinner : n.isMulti = false) (l m : Bytes)
    (ms : List Bytes) : (n.walk ⟨l, m :: ms⟩).cursor.levels <:+ m :: ms := by
  cases n with
  | multiLevelWildCard s => simp at hinner
  | intermediate kind s nodes => exact walk_cons_suffix (walkAt_suffix nodes) l m ms

/-! ## §5 Whatever is collected is stored -/

/-- What a walk collects is stored under a path that the levels from the
cursor on are long enough for. -/
theorem walk_visits (n : SubscriptionNode σ) (c : Cursor) (h : n.Shaped)
    (hinner : n.isMulti = false) (hplain : ∀ l ∈ c.levels, Plain l) {x : σ}
    (hx : x ∈ (n.walk c).sessions) :
    ∃ path, x ∈ n.sessionsAt path ∧ path ≠ [] ∧ path.length ≤ c.levels.length ∧
      ∀ l ∈ path, Matchable l := by
  match n, c, hplain with
  | .multiLevelWildCard s, _, _ => simp at hinner
  | .intermediate kind s nodes, ⟨l, []⟩, hplain =>
    have hl : Plain l := hplain l (by simp [Cursor.levels])
    rcases mem_walk_end.mp hx with hx | hx | hx
    · exact ⟨[l], hx, by simp, by simp [Cursor.levels], by simpa using hl.matchable⟩
    · exact ⟨[hashLevel], hx, by simp, by simp [Cursor.levels], by simpa using matchable_hash⟩
    · exact ⟨[plusLevel], hx, by simp, by simp [Cursor.levels], by simpa using matchable_plus⟩
  | .intermediate kind s nodes, ⟨l, m :: ms⟩, hplain =>
    have hl : Plain l := hplain l (by simp [Cursor.levels])
    have hms : ∀ k ∈ m :: ms, Plain k := fun k hk => hplain k (by simp [Cursor.levels, hk])
    -- a child walked from any later cursor
    have hchild : ∀ (k : Bytes) (c' : Cursor), k ≠ hashLevel → Matchable k →
        c'.levels <:+ m :: ms → x ∈ (nodes.walkAt k c').sessions →
        ∃ path, x ∈ (SubscriptionNode.intermediate kind s nodes).sessionsAt path ∧ path ≠ [] ∧
          path.length ≤ (Cursor.mk l (m :: ms)).levels.length ∧ ∀ l ∈ path, Matchable l := by
      intro k c' hk hmatchable hsuffix hx
      obtain ⟨child, hfind, hx⟩ := mem_walkAt.mp hx
      have hshort : c'.ahead.length < (m :: ms).length := by
        have := hsuffix.length_le
        simp only [Cursor.levels, List.length_cons] at this ⊢
        omega
      obtain ⟨path, hstored, -, hlen, hpath⟩ := walk_visits child c' (h.child hfind)
        (h.not_multi hfind hk) (fun l hl => hms l (hsuffix.subset hl)) hx
      refine ⟨k :: path, ?_, by simp, ?_, ?_⟩
      · rwa [SubscriptionNode.sessionsAt_cons_some hfind]
      · have := hsuffix.length_le
        simp only [Cursor.levels, List.length_cons] at *
        omega
      · simpa using ⟨hmatchable, hpath⟩
    rcases h.mem_walk_cons.mp hx with hx | hx | hx
    · exact hchild l ⟨m, ms⟩ hl.ne_hashLevel hl.matchable (List.suffix_refl _) hx
    · exact ⟨[hashLevel], hx, by simp, by simp [Cursor.levels], by simpa using matchable_hash⟩
    · exact hchild plusLevel _ plusLevel_ne_hashLevel matchable_plus
        (walkAt_suffix nodes l ⟨m, ms⟩) hx
termination_by c.ahead.length
decreasing_by exact hshort

end Acatl.Mqtt
