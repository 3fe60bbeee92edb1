/-
Acatl.Net.SessionLifetime — how long `sessionForId` returns the session of an id.

`Live` is what the history of the calls says: the id has been created, its
session has not been invalidated since, and no two events one after the other,
up to the reading of the clock, are the timeout or more apart. A lookup has two
readings of the clock, and is an event from the first to the second one.

`Tracked` ties the map of the manager to that history: a session in it has the
time of the last event; an id that is not in it, though it was created, has been
invalidated or was found expired at a reading of the clock. That a session which
does not live any more never lives again is a fact about histories
(`Live.of_append`).
-/
import Mathlib.Data.List.Chain
import Mathlib.Data.List.Pairwise
import Acatl.Net.HttpSessions

namespace Acatl.Net

/-! ## §1 The history of an id -/

/-- The calls so far, each with its answer. -/
abbrev History := List (Call × Answer)

/-- The time at which a call creates an id. -/
def creation (id : Text) : Call × Answer → Option Int
  | (.createSession uuid _ now, _) => if uuid.val = id then some now else none
  | _ => none

/-- The time of the last creation of an id, and the history since then. -/
def sinceCreation (id : Text) : History → Option (Int × History)
  | [] => none
  | e :: rest =>
    match sinceCreation id rest with
    | some r => some r
    | none => (creation id e).map fun now => (now, rest)

/-- The readings of the clock of a successful lookup of an id. -/
def success (id : Text) : Call × Answer → Option (Int × Int)
  | (.sessionForId other now later, .session _ true) =>
    if other = id then some (now, later) else none
  | _ => none

theorem success_of_ne {id other : Text} {now later : Int} {answer : Answer} (h : other ≠ id) :
    success other (.sessionForId id now later, answer) = none := by
  cases answer with
  | session ref valid =>
    cases valid with
    | false => rfl
    | true => exact if_neg fun heq => h heq.symm
  | _ => rfl

/-- The creation and the successful lookups, each from its first to its last
reading of the clock. -/
def events (id : Text) (created : Int) (since : History) : List (Int × Int) :=
  (created, created) :: since.filterMap (success id)

/-- Each event begins less than the timeout after the one before. -/
def Spaced (timeout : Int) (times : List (Int × Int)) : Prop :=
  times.IsChain fun a b => b.1 - a.2 < timeout

/-- The session has not been invalidated. -/
def Uninvalidated (id : Text) (since : History) : Prop :=
  ∀ e ∈ since, e.1 ≠ .invalidate (.session id)

/-- The session of an id lives at a time. -/
def Live (timeout : Int) (id : Text) (h : History) (now : Int) : Prop :=
  ∃ created since, sinceCreation id h = some (created, since) ∧ Uninvalidated id since ∧
    Spaced timeout (events id created since ++ [(now, now)])

/-- The end of the last event. -/
def finish (id : Text) (created : Int) (since : History) : Int :=
  ((since.filterMap (success id)).getLast?.map Prod.snd).getD created

section

variable {id : Text} {created now timeout : Int} {since h : History} {e : Call × Answer}

theorem sinceCreation_append (h : History) (e : Call × Answer) :
    sinceCreation id (h ++ [e]) = match creation id e with
      | some now => some (now, [])
      | none => (sinceCreation id h).map fun r => (r.1, r.2 ++ [e]) := by
  induction h with
  | nil => cases hcreation : creation id e <;> simp [sinceCreation, hcreation]
  | cons e' rest ih =>
    rw [List.cons_append, sinceCreation, ih]
    cases creation id e with
    | some now => rfl
    | none =>
      cases hrest : sinceCreation id rest with
      | some r => simp [sinceCreation, hrest]
      | none => cases hcreation : creation id e' <;> simp [sinceCreation, hrest, hcreation]

/-- After an event that is not the creation of the id. -/
theorem since_of_append (hcreation : creation id e = none)
    (hsome : sinceCreation id (h ++ [e]) = some (created, since)) :
    ∃ since', sinceCreation id h = some (created, since') ∧ since = since' ++ [e] := by
  rw [sinceCreation_append, hcreation] at hsome
  obtain ⟨⟨created', since'⟩, hold, heq⟩ := Option.map_eq_some_iff.mp hsome
  obtain ⟨rfl, rfl⟩ := Prod.mk.inj heq
  exact ⟨since', hold, rfl⟩

theorem creation_eq_some (h : creation id e = some now) : e.1.created = some id := by
  obtain ⟨c, answer⟩ := e
  cases c with
  | createSession uuid secure time =>
    by_cases heq : uuid.val = id
    · exact congrArg some heq
    · simp [creation, heq] at h
  | _ => cases h

theorem creation_eq_none (hne : e.1.created ≠ some id) : creation id e = none := by
  cases h : creation id e with
  | none => rfl
  | some now => exact absurd (creation_eq_some h) hne

theorem created_length {c : Call} (h : c.created = some id) : id.length = 36 := by
  cases c with
  | createSession uuid secure time =>
    cases h
    exact uuid.property
  | _ => cases h

theorem sinceCreation_eq_none (hnot : id ∉ h.filterMap fun e => e.1.created) :
    sinceCreation id h = none := by
  induction h with
  | nil => rfl
  | cons e rest ih =>
    have hrest : sinceCreation id rest = none := by
      refine ih fun hmem => hnot ?_
      obtain ⟨e', he', hcreated⟩ := List.mem_filterMap.mp hmem
      exact List.mem_filterMap.mpr ⟨e', List.mem_cons_of_mem _ he', hcreated⟩
    have hne : e.1.created ≠ some id :=
      fun heq => hnot (List.mem_filterMap.mpr ⟨e, List.mem_cons_self .., heq⟩)
    rw [sinceCreation, hrest, creation_eq_none hne]
    rfl

/-- An id with a creation has the length of a uuid. -/
theorem length_of_sinceCreation {r : Int × History} (hr : sinceCreation id h = some r) :
    id.length = 36 := by
  induction h with
  | nil => cases hr
  | cons e rest ih =>
    rw [sinceCreation] at hr
    cases hrest : sinceCreation id rest with
    | some r' => exact ih (hrest.trans (by rw [hrest] at hr; exact hr))
    | none =>
      rw [hrest] at hr
      obtain ⟨now, hnow, -⟩ := Option.map_eq_some_iff.mp hr
      exact created_length (creation_eq_some hnow)

theorem finish_append (e : Call × Answer) :
    finish id created (since ++ [e]) =
      ((success id e).map Prod.snd).getD (finish id created since) := by
  rw [finish, List.filterMap_append]
  cases hsuccess : success id e with
  | none => simp [hsuccess, finish]
  | some times => simp [hsuccess]

theorem getLast_events : (events id created since).getLast?.map Prod.snd =
    some (finish id created since) := by
  rw [events, finish, List.getLast?_cons]
  cases (since.filterMap (success id)).getLast? <;> rfl

theorem spaced_append {later : Int} : Spaced timeout (events id created since ++ [(now, later)]) ↔
    Spaced timeout (events id created since) ∧ now - finish id created since < timeout := by
  have hend : (events id created since).getLast?.map Prod.snd = some (finish id created since) :=
    getLast_events
  obtain ⟨last, hlast, hfinish⟩ := Option.map_eq_some_iff.mp hend
  rw [Spaced, List.isChain_append]
  simp [hlast, hfinish, Spaced]

theorem uninvalidated_append : Uninvalidated id (since ++ [e]) ↔
    Uninvalidated id since ∧ e.1 ≠ .invalidate (.session id) := by
  simp [Uninvalidated, or_imp, forall_and]

theorem readings_of_success {times : Int × Int} (hsuccess : success id e = some times) :
    times.1 ∈ e.1.readings := by
  unfold success at hsuccess
  split at hsuccess
  · split at hsuccess
    · cases hsuccess
      exact List.mem_cons_self ..
    · cases hsuccess
  · cases hsuccess

theorem Live.mono {later : Int} (hlive : Live timeout id h later) (hlater : now ≤ later) :
    Live timeout id h now := by
  obtain ⟨created, since, hsome, halive, hspaced⟩ := hlive
  obtain ⟨hevents, hgap⟩ := spaced_append.mp hspaced
  exact ⟨created, since, hsome, halive, spaced_append.mpr ⟨hevents, by omega⟩⟩

/-- A session that lives later lives now, if what happens in between is not the
creation of its id. -/
theorem Live.before {later : Int} (hlive : Live timeout id (h ++ [e]) later)
    (hcreation : creation id e = none) (hlater : now ≤ later)
    (hreadings : ∀ r ∈ e.1.readings, now ≤ r) : Live timeout id h now := by
  obtain ⟨created, since, hsome, halive, hspaced⟩ := hlive
  obtain ⟨since', hold, rfl⟩ := since_of_append hcreation hsome
  refine ⟨created, since', hold, (uninvalidated_append.mp halive).1, ?_⟩
  obtain ⟨hevents, hgap⟩ := spaced_append.mp hspaced
  rw [finish_append] at hgap
  cases hsuccess : success id e with
  | none =>
    have hsame : events id created (since' ++ [e]) = events id created since' := by
      simp [events, hsuccess]
    rw [hsame] at hevents
    rw [hsuccess, Option.map_none, Option.getD_none] at hgap
    exact spaced_append.mpr ⟨hevents, by omega⟩
  | some times =>
    -- the lookup was in time, and it was not before now
    have hnew : events id created (since' ++ [e]) = events id created since' ++ [times] := by
      simp [events, hsuccess]
    rw [hnew] at hevents
    obtain ⟨hevents, hlookup⟩ := spaced_append.mp hevents
    have hfirst := hreadings times.1 (readings_of_success hsuccess)
    exact spaced_append.mpr ⟨hevents, by omega⟩

/-- **A session that does not live any more never lives again.** -/
theorem Live.of_append {later : Int} {mid : History} (hlive : Live timeout id (h ++ mid) later)
    (hcreation : ∀ e ∈ mid, creation id e = none) (hlater : now ≤ later)
    (hreadings : ∀ e ∈ mid, ∀ r ∈ e.1.readings, now ≤ r) : Live timeout id h now := by
  induction mid using List.reverseRecOn generalizing later with
  | nil => simpa using hlive.mono hlater
  | append_singleton mid e ih =>
    rw [← List.append_assoc] at hlive
    refine ih (hlive.before (hcreation e (by simp)) hlater (hreadings e (by simp)))
      (fun e' he' => hcreation e' (List.mem_append_left _ he')) (Int.le_refl now)
      fun e' he' => hreadings e' (List.mem_append_left _ he')

end

/-! ## §2 The map and the history -/

/-- All readings of the clock so far. -/
def readingsOf (h : History) : List Int := h.flatMap fun e => e.1.readings

/-- What the entry of an id in the map says about the history. -/
def Tracked (timeout : Int) (id : Text) (h : History) : Option HttpSession → Prop
  | some session => ∃ created since, sinceCreation id h = some (created, since) ∧
      session.id = id ∧ Spaced timeout (events id created since) ∧
      finish id created since = session.timestamp ∧
      (session.valid = true ↔ Uninvalidated id since)
  | none => ∀ created since, sinceCreation id h = some (created, since) →
      Uninvalidated id since → ∃ r ∈ readingsOf h, finish id created since + timeout ≤ r

section

variable {id : Text} {timeout : Int} {h : History} {e : Call × Answer} {o : Option HttpSession}

/-- An event that is not about the id. -/
theorem Tracked.keep (ht : Tracked timeout id h o) (hcreation : creation id e = none)
    (hsuccess : success id e = none) (hinvalidate : e.1 ≠ .invalidate (.session id)) :
    Tracked timeout id (h ++ [e]) o := by
  have hfinish (created : Int) (since : History) :
      finish id created (since ++ [e]) = finish id created since := by
    rw [finish_append, hsuccess]
    rfl
  cases o with
  | some session =>
    obtain ⟨created, since, hsome, hid, hspaced, htime, hvalid⟩ := ht
    refine ⟨created, since ++ [e], ?_, hid, ?_, ?_, ?_⟩
    · rw [sinceCreation_append, hcreation, hsome]
      rfl
    · simpa [events, hsuccess] using hspaced
    · rw [hfinish, htime]
    · rw [hvalid, uninvalidated_append, and_iff_left hinvalidate]
  | none =>
    intro created since hsome huninvalidated
    obtain ⟨since', hold, rfl⟩ := since_of_append hcreation hsome
    obtain ⟨r, hr, hle⟩ := ht created since' hold (uninvalidated_append.mp huninvalidated).1
    refine ⟨r, ?_, by rwa [hfinish]⟩
    rw [readingsOf, List.flatMap_append]
    exact List.mem_append_left _ hr

/-- Only these fields of a session matter. -/
theorem Tracked.congr {session session' : HttpSession} (ht : Tracked timeout id h (some session))
    (hid : session'.id = session.id) (hvalid : session'.valid = session.valid)
    (htime : session'.timestamp = session.timestamp) : Tracked timeout id h (some session') := by
  rw [Tracked, hid, hvalid, htime]
  exact ht

/-- The creation of an id. -/
theorem Tracked.create {session : HttpSession} {now : Int} (hcreation : creation id e = some now)
    (hid : session.id = id) (hvalid : session.valid = true) (htime : session.timestamp = now) :
    Tracked timeout id (h ++ [e]) (some session) := by
  refine ⟨now, [], by rw [sinceCreation_append, hcreation], hid, ?_, htime.symm, ?_⟩
  · exact List.isChain_singleton _
  · simp [hvalid, Uninvalidated]

/-- A successful lookup. -/
theorem Tracked.refresh {session session' : HttpSession} {now later : Int}
    (ht : Tracked timeout id h (some session)) (hcreation : creation id e = none)
    (hsuccess : success id e = some (now, later)) (hinvalidate : e.1 ≠ .invalidate (.session id))
    (hnow : now < session.timestamp + timeout) (hid : session'.id = session.id)
    (hvalid : session'.valid = session.valid) (htime : session'.timestamp = later) :
    Tracked timeout id (h ++ [e]) (some session') := by
  obtain ⟨created, since, hsome, hid', hspaced, htime', hvalid'⟩ := ht
  refine ⟨created, since ++ [e], ?_, hid.trans hid', ?_, ?_, ?_⟩
  · rw [sinceCreation_append, hcreation, hsome]
    rfl
  · have hevents :
        events id created (since ++ [e]) = events id created since ++ [(now, later)] := by
      simp [events, hsuccess]
    rw [hevents]
    exact spaced_append.mpr ⟨hspaced, by omega⟩
  · rw [finish_append, hsuccess, htime]
    rfl
  · rw [hvalid, hvalid', uninvalidated_append, and_iff_left hinvalidate]

/-- The id is erased, or is not there. -/
theorem Tracked.forget (hcreation : creation id e = none) (hsuccess : success id e = none)
    (hdead : ∀ created since, sinceCreation id h = some (created, since) →
      Uninvalidated id (since ++ [e]) →
        ∃ r ∈ readingsOf (h ++ [e]), finish id created since + timeout ≤ r) :
    Tracked timeout id (h ++ [e]) none := by
  intro created since hsome huninvalidated
  obtain ⟨since', hold, rfl⟩ := since_of_append hcreation hsome
  obtain ⟨r, hr, hle⟩ := hdead created since' hold huninvalidated
  refine ⟨r, hr, ?_⟩
  rw [finish_append, hsuccess]
  exact hle

/-- An invalidation. -/
theorem Tracked.invalidate {session : HttpSession} (ht : Tracked timeout id h (some session))
    (hcreation : creation id e = none) (hsuccess : success id e = none)
    (hinvalidate : e.1 = .invalidate (.session id)) :
    Tracked timeout id (h ++ [e]) (some session.invalidate) := by
  obtain ⟨created, since, hsome, hid, hspaced, htime, -⟩ := ht
  refine ⟨created, since ++ [e], ?_, hid, ?_, ?_, ?_⟩
  · rw [sinceCreation_append, hcreation, hsome]
    rfl
  · simpa [events, hsuccess] using hspaced
  · rw [finish_append, hsuccess]
    exact htime
  · simp [HttpSession.invalidate, uninvalidated_append, hinvalidate]

end

namespace HttpSessionManager

/-- The manager after a history. -/
structure Tracks (timeout : Int) (m : HttpSessionManager) (h : History) : Prop where
  timeout_eq : m.sessionTimeout = timeout
  invalid : m.invalidSession.valid = false
  tracked : ∀ id, Tracked timeout id h (m.sessions id)

variable {timeout : Int} {m : HttpSessionManager} {h : History} {c : Call}

theorem Tracks.sessions_eq_none (hm : Tracks timeout m h) {id : Text}
    (hfresh : id ∉ h.filterMap fun e => e.1.created) : m.sessions id = none := by
  have htracked := hm.tracked id
  cases hsession : m.sessions id with
  | none => rfl
  | some session =>
    rw [hsession] at htracked
    obtain ⟨created, since, hsome, -⟩ := htracked
    rw [sinceCreation_eq_none hfresh] at hsome
    cases hsome

theorem Tracks.isValid_eq (hm : Tracks timeout m h) {id : Text} {session : HttpSession}
    (hsession : m.sessions id = some session) : session.isValid = session.valid := by
  have htracked := hm.tracked id
  rw [hsession] at htracked
  obtain ⟨created, since, hsome, hid, -⟩ := htracked
  have hne : session.id ≠ [] := by
    intro hnil
    have hlen := length_of_sinceCreation hsome
    rw [← hid, hnil] at hlen
    cases hlen
  simp [HttpSession.isValid, hne]

theorem Tracks.createSession (hm : Tracks timeout m h) {uuid : UuidText} {secure : Bool} {now : Int}
    (hfresh : uuid.val ∉ h.filterMap fun e => e.1.created) :
    Tracks timeout (call m (.createSession uuid secure now)).2
      (h ++ [(.createSession uuid secure now, (call m (.createSession uuid secure now)).1)]) := by
  rw [call_createSession (hm.sessions_eq_none hfresh)]
  refine ⟨by simp [hm.timeout_eq], by simp [hm.invalid], fun id => ?_⟩
  by_cases hid : id = uuid.val
  · subst hid
    rw [store_sessions_self]
    exact .create (if_pos rfl) rfl rfl rfl
  · rw [store_sessions_of_ne _ _ _ hid]
    exact (hm.tracked id).keep (if_neg fun heq => hid heq.symm) rfl (by simp)

theorem Tracks.invalidSession (hm : Tracks timeout m h) : m.invalidSession.isValid = false := by
  simp [HttpSession.isValid, hm.invalid]

/-- The session after a successful lookup. -/
def refreshed (session : HttpSession) (later : Int) : HttpSession :=
  { session with isNew := false, timestamp := later }

/-- What a lookup finds, and what it does: the id is not there, or its session is
given out, or it is erased as invalidated or as expired. -/
theorem Tracks.sessionForId_cases (hm : Tracks timeout m h) (id : Text) (now later : Int) :
    m.sessions id = none ∧
        call m (.sessionForId id now later) = (.session (.invalid id) false, m) ∨
      ∃ session, m.sessions id = some session ∧
        (session.valid = true ∧ now < session.timestamp + timeout ∧
            call m (.sessionForId id now later) =
              (.session (.session id) true, m.store (refreshed session later) (.session id)) ∨
          (session.valid = false ∨ session.timestamp + timeout ≤ now) ∧
            call m (.sessionForId id now later) = (.session (.invalid id) false, m.erase id)) := by
  cases hsession : m.sessions id with
  | none =>
    refine .inl ⟨rfl, ?_⟩
    simp [call, HttpSessionManager.sessionForId, hsession, hm.invalidSession]
  | some session =>
    refine .inr ⟨session, rfl, ?_⟩
    have hisValid := hm.isValid_eq hsession
    cases hvalid : session.valid with
    | false =>
      rw [hvalid] at hisValid
      refine .inr ⟨.inl rfl, ?_⟩
      simp [call, HttpSessionManager.sessionForId, hsession, hisValid, hm.invalidSession]
    | true =>
      rw [hvalid] at hisValid
      by_cases hnow : now < session.timestamp + timeout
      · have hnew : (refreshed session later).isValid = true := hisValid
        refine .inl ⟨rfl, hnow, ?_⟩
        simp only [call, HttpSessionManager.sessionForId, hsession, hisValid, hm.timeout_eq, hnow,
          if_true]
        exact congrArg (fun valid => (Answer.session (.session id) valid, _)) hnew
      · refine .inr ⟨.inr (Int.not_lt.mp hnow), ?_⟩
        simp [call, HttpSessionManager.sessionForId, hsession, hisValid, hm.timeout_eq, hnow,
          hm.invalidSession]

theorem Tracks.sessionForId (hm : Tracks timeout m h) (id : Text) (now later : Int) :
    Tracks timeout (call m (.sessionForId id now later)).2
      (h ++ [(.sessionForId id now later, (call m (.sessionForId id now later)).1)]) := by
  have hkeep {other : Text} {answer : Answer} {o : Option HttpSession} (hne : other ≠ id)
      (ht : Tracked timeout other h o) :
      Tracked timeout other (h ++ [(.sessionForId id now later, answer)]) o :=
    ht.keep rfl (success_of_ne hne) (by simp)
  have hself := hm.tracked id
  obtain ⟨hnone, hcall⟩ | ⟨session, hsession, ⟨hvalid, hnow, hcall⟩ | ⟨hdead, hcall⟩⟩ :=
    hm.sessionForId_cases id now later
  · rw [hcall]
    refine ⟨hm.timeout_eq, hm.invalid, fun other => ?_⟩
    by_cases hother : other = id
    · subst hother
      exact (hm.tracked other).keep rfl rfl (by simp)
    · exact hkeep hother (hm.tracked other)
  · rw [hcall]
    refine ⟨by simp [hm.timeout_eq], by simp [hm.invalid], fun other => ?_⟩
    by_cases hother : other = id
    · subst hother
      rw [hsession] at hself
      rw [store_sessions_self]
      exact hself.refresh rfl (if_pos rfl) (by simp) hnow rfl rfl rfl
    · rw [store_sessions_of_ne _ _ _ hother]
      exact hkeep hother (hm.tracked other)
  · rw [hcall]
    refine ⟨hm.timeout_eq, hm.invalid, fun other => ?_⟩
    by_cases hother : other = id
    · subst hother
      rw [hsession] at hself
      rw [erase_sessions_self]
      obtain ⟨created, since, hsome, -, -, htime, huninvalidated⟩ := hself
      refine .forget rfl rfl fun created' since' hsome' halive => ?_
      cases hsome.symm.trans hsome'
      obtain hinvalid | hexpired := hdead
      · have hvalid := huninvalidated.mpr (uninvalidated_append.mp halive).1
        rw [hinvalid] at hvalid
        cases hvalid
      · exact ⟨now, by simp [readingsOf, Call.readings], htime ▸ hexpired⟩
    · rw [erase_sessions_of_ne _ hother]
      exact hkeep hother (hm.tracked other)

/-- A call that is not about the map. -/
theorem Tracks.keep (hm : Tracks timeout m h) {m' : HttpSessionManager} {e : Call × Answer}
    (htimeout : m'.sessionTimeout = m.sessionTimeout) (hinvalid : m'.invalidSession.valid = false)
    (hcreation : ∀ id, creation id e = none) (hsuccess : ∀ id, success id e = none)
    (hinvalidate : ∀ id, e.1 ≠ .invalidate (.session id))
    (hsessions : ∀ id, m'.sessions id = m.sessions id ∨
      ∃ session session', m.sessions id = some session ∧ m'.sessions id = some session' ∧
        session'.id = session.id ∧ session'.valid = session.valid ∧
        session'.timestamp = session.timestamp) : Tracks timeout m' (h ++ [e]) := by
  refine ⟨htimeout.trans hm.timeout_eq, hinvalid, fun id => ?_⟩
  refine Tracked.keep ?_ (hcreation id) (hsuccess id) (hinvalidate id)
  obtain heq | ⟨session, session', hold, hnew, hid, hvalid, htime⟩ := hsessions id
  · rw [heq]
    exact hm.tracked id
  · have htracked := hm.tracked id
    rw [hold] at htracked
    rw [hnew]
    exact htracked.congr hid hvalid htime

theorem Tracks.invalidate (hm : Tracks timeout m h) (ref : Ref) :
    Tracks timeout (call m (.invalidate ref)).2
      (h ++ [(.invalidate ref, (call m (.invalidate ref)).1)]) := by
  cases ref with
  | invalid other =>
    refine hm.keep ?_ ?_ (fun _ => rfl) (fun _ => rfl) (by simp) fun id => .inl ?_ <;>
      simp only [call, deref, HttpSessionManager.invalidate] <;> split
    · simp
    · rfl
    · rfl
    · exact hm.invalid
    · rfl
    · rfl
  | session other =>
    cases hsession : m.sessions other with
    | none =>
      have hcall : call m (.invalidate (.session other)) = (.undefined, m) := by
        simp [call, deref, hsession]
      rw [hcall]
      refine ⟨hm.timeout_eq, hm.invalid, fun id => ?_⟩
      by_cases hid : id = other
      · subst hid
        rw [hsession]
        exact .forget rfl rfl fun _ _ _ halive =>
          absurd rfl (uninvalidated_append.mp halive).2
      · refine (hm.tracked id).keep rfl rfl ?_
        simpa using fun heq => hid heq.symm
    | some session =>
      have hself := hm.tracked other
      rw [hsession] at hself
      have hid : session.id = other := hself.choose_spec.choose_spec.2.1
      rw [call_invalidate hsession hid]
      refine ⟨by simp [hm.timeout_eq], by simp [hm.invalid], fun id => ?_⟩
      by_cases hid : id = other
      · subst hid
        rw [store_sessions_self]
        exact hself.invalidate rfl rfl rfl
      · rw [store_sessions_of_ne _ _ _ hid]
        refine (hm.tracked id).keep rfl rfl ?_
        simpa using fun heq => hid heq.symm

theorem Tracks.setValue (hm : Tracks timeout m h) (ref : Ref) (key value : Text) :
    Tracks timeout (call m (.setValue ref key value)).2
      (h ++ [(.setValue ref key value, (call m (.setValue ref key value)).1)]) := by
  cases ref with
  | invalid other =>
    rw [call_setValue rfl]
    exact hm.keep rfl (by simp [hm.invalid]) (fun _ => rfl) (fun _ => rfl) (by simp)
      fun id => .inl rfl
  | session other =>
    cases hsession : m.sessions other with
    | none =>
      have hcall : (call m (.setValue (.session other) key value)).2 = m := by
        simp [call, deref, hsession]
      rw [hcall]
      exact hm.keep rfl hm.invalid (fun _ => rfl) (fun _ => rfl) (by simp) fun id => .inl rfl
    | some session =>
      have hderef : m.deref (.session other) = some session := hsession
      rw [call_setValue hderef]
      refine hm.keep (by simp) (by simp [hm.invalid]) (fun _ => rfl) (fun _ => rfl) (by simp) ?_
      intro id
      by_cases hid : id = other
      · subst hid
        exact .inr ⟨session, _, hsession, store_sessions_self .., by simp, by simp, by simp⟩
      · exact .inl (store_sessions_of_ne _ _ _ hid)

/-- **Every call keeps the map and the history together.** -/
theorem Tracks.call (hm : Tracks timeout m h) (c : Call)
    (hfresh : ∀ id, c.created = some id → id ∉ h.filterMap fun e => e.1.created) :
    Tracks timeout (call m c).2 (h ++ [(c, (call m c).1)]) := by
  cases c with
  | createSession uuid secure now => exact hm.createSession (hfresh uuid rfl)
  | sessionForId id now later => exact hm.sessionForId id now later
  | invalidate ref => exact hm.invalidate ref
  | setValue ref key value => exact hm.setValue ref key value
  | value ref key =>
    rw [call_value]
    exact hm.keep rfl hm.invalid (fun _ => rfl) (fun _ => rfl) (by simp) fun id => .inl rfl

/-- The inputs of a history. -/
theorem mem_history {m : HttpSessionManager} {calls : List Call} {e : Call × Answer}
    (he : e ∈ HttpSessionManager.call.history m calls) : e.1 ∈ calls := by
  rw [← Lib.Machine.history_inputs (m := HttpSessionManager.call) m calls]
  exact List.mem_map_of_mem he

theorem tracks_after (timeout : Int) (invalidId : UuidText) (start : Int) (calls : List Call)
    (hids : (calls.filterMap Call.created).Nodup) :
    Tracks timeout (call.after (construct timeout invalidId start) calls)
      (call.history (construct timeout invalidId start) calls) := by
  induction calls using List.reverseRecOn with
  | nil => exact ⟨rfl, rfl, fun id created since hsome => by cases hsome⟩
  | append_singleton calls c ih =>
    rw [List.filterMap_append, List.nodup_append] at hids
    obtain ⟨hbefore, -, hdisjoint⟩ := hids
    rw [Lib.Machine.after_append, Lib.Machine.history_append]
    refine (ih hbefore).call c fun id hid hmem => ?_
    obtain ⟨e, he, hcreated⟩ := List.mem_filterMap.mp hmem
    have hold : id ∈ calls.filterMap Call.created :=
      List.mem_filterMap.mpr ⟨e.1, mem_history he, hcreated⟩
    exact hdisjoint id hold id (by simp [hid]) rfl

/-! ## §3 What is looked up -/

/-- What `sessionForId` returns, from the history. -/
theorem Tracks.live_cases (hm : Tracks timeout m h) {id : Text} {now : Int} (later : Int)
    (hclock : ∀ r ∈ readingsOf h, r ≤ now) :
    (HttpSessionManager.call m (.sessionForId id now later)).1 = .session (.session id) true ∧
        Live timeout id h now ∨
      (HttpSessionManager.call m (.sessionForId id now later)).1 = .session (.invalid id) false ∧
        ¬ Live timeout id h now := by
  have hself := hm.tracked id
  obtain ⟨hnone, hcall⟩ | ⟨session, hsession, hcases⟩ := hm.sessionForId_cases id now later
  · refine .inr ⟨congrArg Prod.fst hcall, fun hlive => ?_⟩
    obtain ⟨created, since, hsome, halive, hspaced⟩ := hlive
    rw [hnone] at hself
    obtain ⟨r, hr, hle⟩ := hself created since hsome halive
    have hgap := (spaced_append.mp hspaced).2
    have hlate := hclock r hr
    omega
  · rw [hsession] at hself
    obtain ⟨created, since, hsome, -, hspaced, htime, huninvalidated⟩ := hself
    obtain ⟨hvalid, hnow, hcall⟩ | ⟨hdead, hcall⟩ := hcases
    · refine .inl ⟨congrArg Prod.fst hcall, created, since, hsome, huninvalidated.mp hvalid, ?_⟩
      exact spaced_append.mpr ⟨hspaced, by omega⟩
    · refine .inr ⟨congrArg Prod.fst hcall, fun hlive => ?_⟩
      obtain ⟨created', since', hsome', halive, hspaced'⟩ := hlive
      cases hsome.symm.trans hsome'
      have hgap := (spaced_append.mp hspaced').2
      obtain hinvalid | hexpired := hdead
      · rw [huninvalidated.mpr halive] at hinvalid
        cases hinvalid
      · omega

/-- What `sessionForId` returns after some calls. -/
def lookup (m : HttpSessionManager) (calls : List Call) (id : Text) (now later : Int) : Answer :=
  (HttpSessionManager.call (HttpSessionManager.call.after m calls) (.sessionForId id now later)).1

/-- A lookup in a run with a clock that does not go back. -/
theorem lookup_cases (timeout : Int) (invalidId : UuidText) (start : Int) {front back : List Call}
    {id : Text} {now later : Int}
    (hclock :
      ((front ++ .sessionForId id now later :: back).flatMap Call.readings).Pairwise (· ≤ ·))
    (hids : ((front ++ .sessionForId id now later :: back).filterMap Call.created).Nodup) :
    lookup (construct timeout invalidId start) front id now later = .session (.session id) true ∧
        Live timeout id
          (HttpSessionManager.call.history (construct timeout invalidId start) front) now ∨
      lookup (construct timeout invalidId start) front id now later =
          .session (.invalid id) false ∧
        ¬ Live timeout id
          (HttpSessionManager.call.history (construct timeout invalidId start) front) now := by
  rw [List.filterMap_append] at hids
  rw [List.flatMap_append, List.pairwise_append] at hclock
  have htracks := tracks_after timeout invalidId start front (List.nodup_append.mp hids).1
  refine htracks.live_cases later fun r hr => ?_
  obtain ⟨e, he, hr⟩ := List.mem_flatMap.mp hr
  exact hclock.2.2 r (List.mem_flatMap.mpr ⟨e.1, mem_history he, hr⟩) now (by simp [Call.readings])

/-- An id that has been created and does not live at a time does not live later. -/
theorem not_live_later {m : HttpSessionManager} {front mid : List Call} {id : Text}
    {time now : Int} (hids : ((front ++ mid).filterMap Call.created).Nodup)
    (hcreated : id ∈ front.filterMap Call.created)
    (hreadings : ∀ r ∈ mid.flatMap Call.readings, time ≤ r) (hnow : time ≤ now)
    (hdead : ¬ Live timeout id (HttpSessionManager.call.history m front) time) :
    ¬ Live timeout id (HttpSessionManager.call.history m (front ++ mid)) now := by
  intro hlive
  rw [Lib.Machine.history_append] at hlive
  rw [List.filterMap_append, List.nodup_append] at hids
  refine hdead (hlive.of_append (fun e he => creation_eq_none fun heq => ?_) hnow
    fun e he r hr => ?_)
  · exact hids.2.2 id hcreated id (List.mem_filterMap.mpr ⟨e.1, mem_history he, heq⟩) rfl
  · exact hreadings r (List.mem_flatMap.mpr ⟨e.1, mem_history he, hr⟩)

end HttpSessionManager

end Acatl.Net
