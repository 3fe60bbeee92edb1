/-
Acatl.Net.SessionData — which value `value(key)` returns, over runs with writes
through the references that the manager has handed out.

`HttpSession::value(key, value)` inserts, so that a key keeps its first value, and
all unknown and expired ids share one session, which keeps what is written to
it. Along runs whose calls are `Proper` neither matters, and a value is that of
its own id (`values_along`).
-/
import Mathlib.Data.List.Induction
import Acatl.Net.HttpSessions

namespace Acatl.Net

/-! ## §1 What the calls say -/

/-- What a call does to the value most recently written for a key through a
reference for an id, since the id was created or last invalidated. -/
def writtenBy (id key : Text) (value : Option Text) : Call → Option Text
  | .createSession uuid _ _ => if uuid.val = id then none else value
  | .invalidate (.session other) => if other = id then none else value
  | .setValue ref k v => if ref.id = id ∧ k = key then some v else value
  | _ => value

/-- That value after some calls. -/
def written (id key : Text) (calls : List Call) : Option Text :=
  calls.foldl (writtenBy id key) none

/-- What is to be read. -/
def expected (id key : Text) (calls : List Call) : Text := (written id key calls).getD []

theorem written_append (id key : Text) (calls : List Call) (c : Call) :
    written id key (calls ++ [c]) = writtenBy id key (written id key calls) c := by
  rw [written, List.foldl_append]
  rfl

/-- A value that is to be read was written for the same key and the same id. -/
theorem mem_of_written {id key v : Text} {calls : List Call}
    (h : written id key calls = some v) : ∃ ref, .setValue ref key v ∈ calls ∧ ref.id = id := by
  induction calls using List.reverseRecOn with
  | nil => cases h
  | append_singleton calls c ih =>
    rw [written_append] at h
    have hold (hwritten : written id key calls = some v) :
        ∃ ref, .setValue ref key v ∈ calls ++ [c] ∧ ref.id = id := by
      obtain ⟨ref, hmem, hid⟩ := ih hwritten
      exact ⟨ref, List.mem_append_left _ hmem, hid⟩
    cases c with
    | createSession uuid secure now =>
      rw [writtenBy] at h
      split at h
      · cases h
      · exact hold h
    | sessionForId other now later => exact hold h
    | invalidate ref =>
      cases ref with
      | invalid other => exact hold h
      | session other =>
        rw [writtenBy] at h
        split at h
        · cases h
        · exact hold h
    | setValue ref k w =>
      rw [writtenBy] at h
      split at h
      · rename_i hsame
        obtain ⟨hid, rfl⟩ := hsame
        cases h
        exact ⟨ref, by simp, hid⟩
      · exact hold h
    | value ref k => exact hold h

namespace HttpSessionManager

/-- The manager, with the calls so far. -/
def recorded : Lib.Machine (HttpSessionManager × List Call) Call Answer :=
  fun s c => ((call s.1 c).1, ((call s.1 c).2, s.2 ++ [c]))

/-- The condition of a call: its reference leads to a session; a value is written
to a session of the map only, which has no other value for the key; and nothing
that was written for an id is looked for in the invalid session. -/
def Proper (s : HttpSessionManager × List Call) : Call → Prop
  | .setValue (.session id) key value => ∃ session ∈ s.1.sessions id,
      session.values key = none ∨ session.values key = some value
  | .setValue (.invalid _) _ _ => False
  | .value (.invalid id) key => expected id key s.2 = []
  | c => s.1.Alive c

instance (s : HttpSessionManager × List Call) : DecidablePred (Proper s)
  | .createSession uuid secure now =>
    inferInstanceAs (Decidable (s.1.Alive (.createSession uuid secure now)))
  | .sessionForId id now later =>
    inferInstanceAs (Decidable (s.1.Alive (.sessionForId id now later)))
  | .invalidate ref => inferInstanceAs (Decidable (s.1.Alive (.invalidate ref)))
  | .setValue (.session id) key value => inferInstanceAs (Decidable (∃ session ∈ s.1.sessions id,
      session.values key = none ∨ session.values key = some value))
  | .setValue (.invalid _) _ _ => inferInstanceAs (Decidable False)
  | .value (.session id) key => inferInstanceAs (Decidable (s.1.Alive (.value (.session id) key)))
  | .value (.invalid id) key => inferInstanceAs (Decidable (expected id key s.2 = []))

/-- A value is that of its id, and comes from a write for it. -/
structure Own (m : HttpSessionManager) (before : List Call) (ref : Ref) (key : Text) : Prop where
  eq : (call m (.value ref key)).1 = .text (expected ref.id key before)
  source : ∀ v, v ≠ [] → (call m (.value ref key)).1 = .text v →
    ∃ ref', .setValue ref' key v ∈ before ∧ ref'.id = ref.id

/-! ## §2 The values in the map -/

/-- The values of the sessions in the map are those of the calls, and the invalid
session has none. -/
structure Stored (m : HttpSessionManager) (calls : List Call) : Prop where
  id_eq : ∀ id session, m.sessions id = some session → session.id = id
  created : ∀ id session, m.sessions id = some session → id ∈ calls.filterMap Call.created
  values : ∀ id session, m.sessions id = some session →
    ∀ key, session.values key = written id key calls
  invalid : ∀ key, m.invalidSession.values key = none

variable {m : HttpSessionManager} {calls : List Call}

theorem mem_created_append {id : Text} (c : Call) (h : id ∈ calls.filterMap Call.created) :
    id ∈ (calls ++ [c]).filterMap Call.created := by
  rw [List.filterMap_append]
  exact List.mem_append_left _ h

/-- A call that stores a session at an id, and leaves the others. -/
theorem Stored.store (hm : Stored m calls) {c : Call} {id : Text} {session : HttpSession}
    (hid : session.id = id) (hcreated : id ∈ (calls ++ [c]).filterMap Call.created)
    (hvalues : ∀ key, session.values key = written id key (calls ++ [c]))
    (hothers : ∀ other key, other ≠ id →
      written other key (calls ++ [c]) = written other key calls) :
    Stored (m.store session (.session id)) (calls ++ [c]) := by
  have hcases {other : Text} {found : HttpSession}
      (h : (m.store session (.session id)).sessions other = some found) :
      other = id ∧ found = session ∨ other ≠ id ∧ m.sessions other = some found := by
    by_cases heq : other = id
    · subst heq
      rw [store_sessions_self] at h
      exact .inl ⟨rfl, (Option.some.inj h).symm⟩
    · rw [store_sessions_of_ne _ _ _ heq] at h
      exact .inr ⟨heq, h⟩
  refine ⟨fun other found h => ?_, fun other found h => ?_, fun other found h key => ?_,
    by simpa using hm.invalid⟩
  · obtain ⟨rfl, rfl⟩ | ⟨-, hold⟩ := hcases h
    · exact hid
    · exact hm.id_eq other found hold
  · obtain ⟨rfl, rfl⟩ | ⟨-, hold⟩ := hcases h
    · exact hcreated
    · exact mem_created_append c (hm.created other found hold)
  · obtain ⟨rfl, rfl⟩ | ⟨hne, hold⟩ := hcases h
    · exact hvalues key
    · rw [hothers other key hne]
      exact hm.values other found hold key

/-- A call that at most takes sessions out of the map. -/
theorem Stored.keep (hm : Stored m calls) {c : Call} {m' : HttpSessionManager}
    (hsessions : ∀ id session, m'.sessions id = some session → m.sessions id = some session)
    (hinvalid : ∀ key, m'.invalidSession.values key = none)
    (hwritten : ∀ id session, m'.sessions id = some session →
      ∀ key, written id key (calls ++ [c]) = written id key calls) :
    Stored m' (calls ++ [c]) := by
  refine ⟨fun id session h => hm.id_eq id session (hsessions id session h),
    fun id session h => mem_created_append c (hm.created id session (hsessions id session h)),
    fun id session h key => ?_, hinvalid⟩
  rw [hwritten id session h key]
  exact hm.values id session (hsessions id session h) key

theorem Stored.createSession (hm : Stored m calls) {uuid : UuidText} {secure : Bool} {now : Int}
    (hfresh : uuid.val ∉ calls.filterMap Call.created) :
    Stored (call m (.createSession uuid secure now)).2
      (calls ++ [.createSession uuid secure now]) := by
  have hnone : m.sessions uuid = none := by
    cases hsession : m.sessions uuid with
    | none => rfl
    | some session => exact absurd (hm.created uuid session hsession) hfresh
  rw [call_createSession hnone]
  refine hm.store rfl ?_ (fun key => ?_) fun other key hne => ?_
  · simp [Call.created]
  · rw [written_append, writtenBy, if_pos rfl]
    rfl
  · rw [written_append, writtenBy, if_neg fun heq => hne heq.symm]

theorem Stored.sessionForId (hm : Stored m calls) (id : Text) (now later : Int) :
    Stored (call m (.sessionForId id now later)).2 (calls ++ [.sessionForId id now later]) := by
  have hwritten (other key : Text) :
      written other key (calls ++ [.sessionForId id now later]) = written other key calls :=
    written_append ..
  have herase : Stored (m.erase id) (calls ++ [.sessionForId id now later]) := by
    refine hm.keep (fun other session h => ?_) hm.invalid fun other _ _ => hwritten other
    by_cases hother : other = id
    · subst hother
      rw [erase_sessions_self] at h
      cases h
    · rwa [erase_sessions_of_ne _ hother] at h
  simp only [call, HttpSessionManager.sessionForId]
  split
  · exact hm.keep (fun _ _ h => h) hm.invalid fun other _ _ => hwritten other
  · rename_i session hsession
    split
    · split
      · refine hm.store (hm.id_eq id session hsession)
          (mem_created_append _ (hm.created id session hsession)) (fun key => ?_)
          fun other key _ => hwritten other key
        rw [hwritten]
        exact hm.values id session hsession key
      · exact herase
    · exact herase

theorem Stored.invalidate (hm : Stored m calls) (ref : Ref) :
    Stored (call m (.invalidate ref)).2 (calls ++ [.invalidate ref]) := by
  cases ref with
  | invalid other =>
    have hwritten (id key : Text) :
        written id key (calls ++ [.invalidate (.invalid other)]) = written id key calls :=
      written_append ..
    simp only [call, deref, HttpSessionManager.invalidate]
    split
    · exact hm.keep (fun _ _ h => h) (fun _ => rfl) fun id _ _ => hwritten id
    · exact hm.keep (fun _ _ h => h) hm.invalid fun id _ _ => hwritten id
  | session other =>
    have hothers (id key : Text) (hne : id ≠ other) :
        written id key (calls ++ [.invalidate (.session other)]) = written id key calls := by
      rw [written_append, writtenBy, if_neg fun heq => hne heq.symm]
    cases hsession : m.sessions other with
    | none =>
      have hcall : (call m (.invalidate (.session other))).2 = m := by
        simp [call, deref, hsession]
      rw [hcall]
      refine hm.keep (fun _ _ h => h) hm.invalid fun id session h key => hothers id key ?_
      intro heq
      rw [heq, hsession] at h
      cases h
    | some session =>
      have hid := hm.id_eq other session hsession
      rw [call_invalidate hsession hid]
      refine hm.store hid (mem_created_append _ (hm.created other session hsession))
        (fun key => ?_) hothers
      rw [written_append, writtenBy, if_pos rfl]
      rfl

theorem setValue_values {s : HttpSession} {key value : Text}
    (h : s.values key = none ∨ s.values key = some value) (k : Text) :
    (s.setValue key value).values k = if k = key then some value else s.values k := by
  obtain hnone | hsome := h
  · simp [HttpSession.setValue, hnone, Function.update_apply]
  · rw [HttpSession.setValue, hsome]
    by_cases hk : k = key
    · simp [hk, hsome]
    · simp [hk]

/-- A proper write. -/
theorem Stored.setValue (hm : Stored m calls) {id key value : Text} {session : HttpSession}
    (hsession : m.sessions id = some session)
    (hkey : session.values key = none ∨ session.values key = some value) :
    Stored (call m (.setValue (.session id) key value)).2
      (calls ++ [.setValue (.session id) key value]) := by
  have hderef : m.deref (.session id) = some session := hsession
  rw [call_setValue hderef]
  refine hm.store ?_ (mem_created_append _ (hm.created id session hsession)) (fun k => ?_)
    fun other k hne => ?_
  · rw [HttpSession.setValue_id]
    exact hm.id_eq id session hsession
  · rw [setValue_values hkey, written_append, writtenBy, hm.values id session hsession]
    by_cases hk : k = key
    · simp [hk, Ref.id]
    · simp [hk, Ne.symm hk]
  · rw [written_append, writtenBy, if_neg]
    exact fun heq => hne heq.1.symm

/-- **Every proper call keeps the values in the map those of the calls.** -/
theorem Stored.call (hm : Stored m calls) {c : Call} (hproper : Proper (m, calls) c)
    (hfresh : ∀ id, c.created = some id → id ∉ calls.filterMap Call.created) :
    Stored (call m c).2 (calls ++ [c]) := by
  cases c with
  | createSession uuid secure now => exact hm.createSession (hfresh uuid rfl)
  | sessionForId id now later => exact hm.sessionForId id now later
  | invalidate ref => exact hm.invalidate ref
  | setValue ref key value =>
    cases ref with
    | invalid other => exact hproper.elim
    | session id =>
      obtain ⟨session, hsession, hkey⟩ := hproper
      exact hm.setValue hsession hkey
  | value ref key =>
    rw [call_value]
    exact hm.keep (fun _ _ h => h) hm.invalid fun id _ _ k => written_append ..

theorem recorded_after (s : HttpSessionManager × List Call) (cs : List Call) :
    recorded.after s cs = (HttpSessionManager.call.after s.1 cs, s.2 ++ cs) := by
  induction cs generalizing s with
  | nil => simp
  | cons c cs ih => simp [ih, recorded]

theorem stored_after (timeout : Int) (invalidId : UuidText) (start : Int) (calls : List Call)
    (hids : (calls.filterMap Call.created).Nodup)
    (hproper : recorded.Along Proper (construct timeout invalidId start, []) calls) :
    Stored (HttpSessionManager.call.after (construct timeout invalidId start) calls) calls := by
  induction calls using List.reverseRecOn with
  | nil => exact ⟨by simp [construct], by simp [construct], by simp [construct], fun _ => rfl⟩
  | append_singleton calls c ih =>
    rw [List.filterMap_append, List.nodup_append] at hids
    obtain ⟨hbefore, -, hdisjoint⟩ := hids
    obtain ⟨halong, hc, -⟩ := Lib.Machine.along_append.mp hproper
    rw [recorded_after, List.nil_append] at hc
    rw [Lib.Machine.after_append]
    refine (ih hbefore halong).call hc fun id hid hmem => ?_
    exact hdisjoint id hmem id (by simp [hid]) rfl

/-! ## §3 What is read -/

/-- A proper read. -/
theorem Stored.own (hm : Stored m calls) {ref : Ref} {key : Text}
    (hproper : Proper (m, calls) (.value ref key)) : Own m calls ref key := by
  have heq : (HttpSessionManager.call m (.value ref key)).1 =
      .text (expected ref.id key calls) := by
    cases ref with
    | invalid id =>
      have hempty : expected id key calls = [] := hproper
      simp [HttpSessionManager.call, deref, HttpSession.value, hm.invalid, Ref.id, hempty]
    | session id =>
      obtain ⟨session, hsession⟩ := Option.isSome_iff_exists.mp hproper
      have hfound : m.sessions id = some session := hsession
      simp [HttpSessionManager.call, deref, hfound, HttpSession.value,
        hm.values id session hfound, Ref.id, expected]
  refine ⟨heq, fun v hv hanswer => ?_⟩
  rw [heq] at hanswer
  cases hanswer
  rw [expected] at hv ⊢
  cases hwritten : written ref.id key calls with
  | none => simp [hwritten] at hv
  | some w => exact mem_of_written hwritten

/-- **The data of a session is its own**, along runs all of whose calls are proper
and with generated ids that differ. -/
theorem values_along (timeout : Int) (invalidId : UuidText) (start : Int) (calls : List Call)
    (hids : (calls.filterMap Call.created).Nodup)
    (hproper : recorded.Along Proper (construct timeout invalidId start, []) calls) :
    ∀ front ref key back, calls = front ++ .value ref key :: back →
      Own (HttpSessionManager.call.after (construct timeout invalidId start) front) front ref
        key := by
  intro front ref key back hcalls
  subst hcalls
  rw [List.filterMap_append] at hids
  obtain ⟨hfront, hread, -⟩ := Lib.Machine.along_append.mp hproper
  have hstored := stored_after timeout invalidId start front (List.nodup_append.mp hids).1 hfront
  rw [recorded_after, List.nil_append] at hread
  exact hstored.own hread

/-- A session in which a key is written once, and read. -/
theorem values_along_once :
    Own (HttpSessionManager.call.after (construct 10 ⟨List.replicate 36 48, rfl⟩ 0)
        [.createSession ⟨List.replicate 36 49, rfl⟩ true 0,
          .setValue (.session (List.replicate 36 49)) [97] [98]])
      [.createSession ⟨List.replicate 36 49, rfl⟩ true 0,
        .setValue (.session (List.replicate 36 49)) [97] [98]]
      (.session (List.replicate 36 49)) [97] :=
  values_along 10 ⟨List.replicate 36 48, rfl⟩ 0
    [.createSession ⟨List.replicate 36 49, rfl⟩ true 0,
      .setValue (.session (List.replicate 36 49)) [97] [98],
      .value (.session (List.replicate 36 49)) [97]] (by decide) (by decide) _ _ _ [] rfl

/-- A second write to a key is lost. -/
theorem not_always_own :
    ¬ ∀ (timeout : Int) (invalidId : UuidText) (start : Int) (calls : List Call),
      (calls.filterMap Call.created).Nodup →
      HttpSessionManager.call.Along Alive (construct timeout invalidId start) calls →
        ∀ front ref key back, calls = front ++ .value ref key :: back →
          Own (HttpSessionManager.call.after (construct timeout invalidId start) front) front ref
            key := by
  intro h
  have hown := h 10 ⟨List.replicate 36 48, rfl⟩ 0
    [.createSession ⟨List.replicate 36 49, rfl⟩ true 0,
      .setValue (.session (List.replicate 36 49)) [97] [98],
      .setValue (.session (List.replicate 36 49)) [97] [99],
      .value (.session (List.replicate 36 49)) [97]] (by decide) (by decide)
    [.createSession ⟨List.replicate 36 49, rfl⟩ true 0,
      .setValue (.session (List.replicate 36 49)) [97] [98],
      .setValue (.session (List.replicate 36 49)) [97] [99]]
    (.session (List.replicate 36 49)) [97] [] rfl
  exact absurd hown.eq (by decide)

end HttpSessionManager

end Acatl.Net
