/-
Acatl.Mqtt.Sessions — `mqtt_session.h` and `mqtt_session_manager.h`: the
session of a client, and the manager that lends it to one connection at a time.

Representation choices:

* a `std::shared_ptr<Session>` is the address of the object (`SessionPtr`).
  A session lives as long as a pointer to it does, so the objects stay in
  `SessionManager.objects` when the map forgets them;
* a `std::weak_ptr<PacketSender>` is the identity of the sender, or `none`
  for an empty pointer; whether the sender is still there is asked of the
  broker (`Acatl.Mqtt.Processor`);
* a `SubscriptionHandler&` is the identity of the `Processor` behind it.

Every public function of `SessionManager` holds `_sessionsMutex` from its
first access to the map to its last, so each is one function here.
-/
import Acatl.Mqtt.Topic

namespace Acatl.Mqtt

/-- The identity of a `Processor`; a new one for every object. -/
abbrev ProcessorId := Nat

/-- The identity of a `PacketSender`. -/
abbrev SenderId := Nat

/-! ## Session -/

/-- `Session`. -/
structure Session where
  clientId : Bytes
  subscriptionHandler : ProcessorId
  sender : Option SenderId := none
  subscriptions : TopicFilters := []
  deriving DecidableEq

namespace Session

/-- `Session::setSender`. -/
def setSender (session : Session) (sender : Option SenderId) : Session :=
  { session with sender := sender }

/-- `Session::addSubscriptions`, up to the call of the handler: the filters
that are new to the session, which the handler gets, and the session. -/
def addSubscriptions (session : Session) (subscriptions : TopicFilters) :
    TopicFilters × Session :=
  let result := findDifference subscriptions session.subscriptions
  (result, { session with subscriptions := session.subscriptions ++ result })

end Session

/-! ## SessionManager -/

/-- `SessionManager::SessionWrapper`. -/
structure SessionWrapper where
  session : SessionId
  inUse : Bool
  deriving DecidableEq

/-- `SessionManager`: the map `_sessions`, and the `Session` objects by
address. The addresses from `next` on are free. -/
structure SessionManager where
  sessions : Bytes → Option SessionWrapper := fun _ => none
  objects : SessionId → Session := fun _ => ⟨[], 0, none, []⟩
  next : SessionId := 0

namespace SessionManager

/-- `iter->second = wrapper`. -/
def setWrapper (m : SessionManager) (clientId : Bytes) (wrapper : SessionWrapper) :
    SessionManager :=
  { m with sessions := Function.update m.sessions clientId (some wrapper) }

/-- `session->setSender(sender)`. -/
def setSender (m : SessionManager) (session : SessionId) (sender : Option SenderId) :
    SessionManager :=
  { m with objects := Function.update m.objects session ((m.objects session).setSender sender) }

/-- `SessionWrapper(clientId, subscriptionHandler)`, which allocates a session. -/
def newWrapper (m : SessionManager) (clientId : Bytes) (subscriptionHandler : ProcessorId) :
    SessionWrapper × SessionManager :=
  (⟨m.next, false⟩, { m with
    objects := Function.update m.objects m.next ⟨clientId, subscriptionHandler, none, []⟩
    next := m.next + 1 })

/-- `SessionManager::getSession`: the session, the error code and the
manager. -/
def getSession (m : SessionManager) (clientId : Bytes) (sender : Option SenderId)
    (subscriptionHandler : ProcessorId) : SessionPtr × ErrorCode × SessionManager :=
  match m.sessions clientId with
  | some wrapper =>
    if wrapper.inUse then
      (none, some .sessionInUse, m)
    else
      (some wrapper.session, none,
        (m.setSender wrapper.session sender).setWrapper clientId { wrapper with inUse := true })
  | none =>
    let (wrapper, m) := m.newWrapper clientId subscriptionHandler
    let m := m.setWrapper clientId wrapper
    (some wrapper.session, none,
      (m.setSender wrapper.session sender).setWrapper clientId { wrapper with inUse := true })

/-- `SessionManager::returnSession`: what it returns, the error code and the
manager. The entry is looked up by the client identifier of the session. -/
def returnSession (m : SessionManager) (session : SessionPtr) : Bool × ErrorCode × SessionManager :=
  match session with
  | none => (false, some .sessionNotFound, m)
  | some session =>
    let clientId := (m.objects session).clientId
    match m.sessions clientId with
    | none => (false, some .sessionNotFound, m)
    | some wrapper =>
      (true, none,
        (m.setSender wrapper.session none).setWrapper clientId { wrapper with inUse := false })

/-- `SessionManager::removeSession`: what it returns, the error code and the
manager. On success it leaves the error code as it is. -/
def removeSession (m : SessionManager) (clientId : Bytes) (ec : ErrorCode) :
    Bool × ErrorCode × SessionManager :=
  match m.sessions clientId with
  | none => (false, some .sessionNotFound, m)
  | some wrapper =>
    if wrapper.inUse then
      (false, some .sessionInUse, m)
    else
      (true, ec, { m with sessions := Function.update m.sessions clientId none })

/-! ## The cases of each operation -/

section

variable {m : SessionManager} {clientId : Bytes} {sender : Option SenderId}
  {handler : ProcessorId} {ec : ErrorCode}

theorem getSession_inUse {s : SessionId} (h : m.sessions clientId = some ⟨s, true⟩) :
    m.getSession clientId sender handler = (none, some .sessionInUse, m) := by
  simp [getSession, h]

theorem getSession_known {s : SessionId} (h : m.sessions clientId = some ⟨s, false⟩) :
    m.getSession clientId sender handler = (some s, none, { m with
      sessions := Function.update m.sessions clientId (some ⟨s, true⟩)
      objects := Function.update m.objects s ((m.objects s).setSender sender) }) := by
  simp [getSession, h, setSender, setWrapper]

theorem getSession_new (h : m.sessions clientId = none) :
    m.getSession clientId sender handler = (some m.next, none, {
      sessions := Function.update m.sessions clientId (some ⟨m.next, true⟩)
      objects := Function.update m.objects m.next ⟨clientId, handler, sender, []⟩
      next := m.next + 1 }) := by
  simp [getSession, h, setSender, setWrapper, newWrapper, Session.setSender]

/-- A session that is not in use is lent. -/
theorem getSession_free (sender : Option SenderId) (handler : ProcessorId)
    (h : ∀ s, m.sessions clientId ≠ some ⟨s, true⟩) :
    ∃ s, (m.getSession clientId sender handler).1 = some s ∧
      (m.getSession clientId sender handler).2.1 = none ∧
      (m.getSession clientId sender handler).2.2.sessions clientId = some ⟨s, true⟩ := by
  cases hw : m.sessions clientId with
  | none =>
    refine ⟨m.next, ?_⟩
    simp [getSession_new hw]
  | some wrapper =>
    obtain ⟨s, inUse⟩ := wrapper
    cases inUse with
    | true => exact absurd hw (h s)
    | false =>
      refine ⟨s, ?_⟩
      simp [getSession_known hw]

/-- `getSession` writes the sender of a session, or makes a session. -/
theorem getSession_object (m : SessionManager) (clientId : Bytes) (sender : Option SenderId)
    (handler : ProcessorId) (t : SessionId) :
    (∃ sender', (m.getSession clientId sender handler).2.2.objects t =
      { m.objects t with sender := sender' }) ∨
    (t = m.next ∧ (m.getSession clientId sender handler).2.2.objects t =
      ⟨clientId, handler, sender, []⟩) := by
  cases hw : m.sessions clientId with
  | none =>
    rw [getSession_new hw]
    by_cases ht : t = m.next
    · subst ht
      exact .inr ⟨rfl, Function.update_self ..⟩
    · exact .inl ⟨_, Function.update_of_ne ht ..⟩
  | some wrapper =>
    obtain ⟨s, inUse⟩ := wrapper
    cases inUse with
    | true =>
      rw [getSession_inUse hw]
      exact .inl ⟨_, rfl⟩
    | false =>
      rw [getSession_known hw]
      by_cases ht : t = s
      · subst ht
        exact .inl ⟨_, Function.update_self ..⟩
      · exact .inl ⟨_, Function.update_of_ne ht ..⟩

@[simp] theorem returnSession_none : m.returnSession none = (false, some .sessionNotFound, m) := rfl

theorem returnSession_known {s : SessionId} {wrapper : SessionWrapper}
    (h : m.sessions (m.objects s).clientId = some wrapper) :
    m.returnSession (some s) = (true, none, { m with
      sessions :=
        Function.update m.sessions (m.objects s).clientId (some ⟨wrapper.session, false⟩)
      objects :=
        Function.update m.objects wrapper.session ((m.objects wrapper.session).setSender none) }) := by
  simp [returnSession, h, setSender, setWrapper]

/-- `returnSession` writes the sender of a session. -/
theorem returnSession_object (m : SessionManager) (session : SessionPtr) (t : SessionId) :
    ∃ sender', (m.returnSession session).2.2.objects t =
      { m.objects t with sender := sender' } := by
  unfold returnSession
  split
  · exact ⟨_, rfl⟩
  dsimp only
  split
  · exact ⟨_, rfl⟩
  · rename_i wrapper _
    by_cases ht : t = wrapper.session
    · subst ht
      exact ⟨_, Function.update_self ..⟩
    · exact ⟨_, Function.update_of_ne ht ..⟩

theorem removeSession_free {s : SessionId} (h : m.sessions clientId = some ⟨s, false⟩) :
    m.removeSession clientId ec =
      (true, ec, { m with sessions := Function.update m.sessions clientId none }) := by
  simp [removeSession, h]

@[simp] theorem removeSession_objects :
    (m.removeSession clientId ec).2.2.objects = m.objects := by
  unfold removeSession
  split
  · rfl
  · split <;> rfl

/-- A session in use is not removed, and neither is one that is not there. -/
theorem removeSession_kept (h : ∀ s, m.sessions clientId ≠ some ⟨s, false⟩) :
    (m.removeSession clientId ec).1 = false ∧ (m.removeSession clientId ec).2.2 = m := by
  unfold removeSession
  cases hw : m.sessions clientId with
  | none => exact ⟨rfl, rfl⟩
  | some wrapper =>
    obtain ⟨s, inUse⟩ := wrapper
    cases inUse with
    | false => exact absurd hw (h s)
    | true => exact ⟨rfl, rfl⟩

end

end SessionManager

end Acatl.Mqtt
