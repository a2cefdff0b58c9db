import Deai.DbusFilter
import Deai.DbusSignals
import Deai.RequestTokens

/-!
# Requests and their replies

A method call is sent with a promise, which lies in the member `promise_for_request_<serial>` of
the connection until a reply or an error names this serial. The serials are given by the library,
to everything that is sent, and come again after a while. What the promises are settled with is
compared with a ledger in which a reply names the request itself.
-/
namespace Deai.DbusReplies
open Fallible Value DbusMessage DbusDecoding DbusFilter DbusSignals RequestTokens
open Signal (SignalId)

inductive Settlement where
  | resolved (value : DiType × Decoded)
  | rejected (message : String)

/-- Promises are known by numbers, in the order in which they are made. -/
structure State where
  connection : Connection := {}
  sent : ℕ := 0
  /-- The value of the member `promise_for_request_<serial>`. -/
  promise : UInt32 → ℕ := fun _ => 0
  made : ℕ := 0
  settled : List (ℕ × Settlement) := []

/-- A method is called, or a property is read or written; another message is sent; a signal gets
its first listener, or loses the last one; the reply to a message is read. -/
inductive Event where
  | call
  | send (answered : Bool)
  | subscribe (k : Key) (x : SignalId)
  | unsubscribe (k : Key)
  | reply (n : ℕ) (isError : Bool) (body : List DbusValue)

/-- The header of a reply. -/
def header (isError : Bool) (serial : UInt32) : Header :=
  if isError then .error serial else .methodReturn serial

/-- What `dbus_filter` does for a reply. The member is deleted and the filter may be removed. -/
def perform (s : State) : Action → State
  | .resolve serial value =>
      {s with connection := dbusFilterReply serial s.connection,
              settled := s.settled ++ [(s.promise serial, .resolved value)]}
  | .reject serial message =>
      {s with connection := dbusFilterReply serial s.connection,
              settled := s.settled ++ [(s.promise serial, .rejected message)]}
  | _ => s

/-- `di_dbus_send_message` and `di_dbus_add_promise_for`. A member that is there already keeps
its promise. -/
def callMethod (serial : UInt32) (s : State) : State :=
  {s with connection := diDbusAddPromiseFor serial s.connection,
          sent := s.sent + 1,
          promise := if serial ∈ s.connection.promises then s.promise
            else Function.update s.promise serial s.made,
          made := s.made + 1}

section System
variable (serialOf : ℕ → UInt32) (objects : ObjRef → DbusObject)

inductive Step : State → Event → State → Prop where
  | call (s : State) : Step s .call (callMethod (serialOf s.sent) s)
  | send (s : State) (answered : Bool) : Step s (.send answered) {s with sent := s.sent + 1}
  | subscribe {s : State} {k : Key} {x : SignalId} {c : Connection} (hname : k.2 ≠ "")
      (hnew : k ∉ s.connection.signals.map Prod.fst)
      (h : diDbusObjectNewSignal objects k x s.connection = .ok c) :
      Step s (.subscribe k x) {s with connection := c, sent := s.sent + 1}
  | unsubscribe {s : State} {k : Key} {c : Connection}
      (hmem : k ∈ s.connection.signals.map Prod.fst)
      (h : diDbusObjectDelSignal objects k s.connection = .ok c) :
      Step s (.unsubscribe k) {s with connection := c, sent := s.sent + 1}
  | reply {s : State} {n : ℕ} {isError : Bool} {body : List DbusValue} {action : Action}
      (hfilter : s.connection.installed = true)
      (h : dbusFilter (fun serial => serial ∈ s.connection.promises)
        (header isError (serialOf n)) body = .ok action) :
      Step s (.reply n isError body) (perform s action)

inductive Steps : State → List Event → State → Prop where
  | nil (s : State) : Steps s [] s
  | cons {s s' s'' : State} {e : Event} {es : List Event} :
      Step serialOf objects s e s' → Steps s' es s'' → Steps s (e :: es) s''

end System

/-! ## The ledger -/

/-- What a promise is settled with, by the body of the reply. -/
def settlement (isError : Bool) (body : List DbusValue) : Option Settlement :=
  match isError, dbusDeserializeStruct body with
  | true, .ok ((_, .string message) :: _) => some (.rejected message)
  | false, .ok t =>
      some (.resolved (match t with
        | [value] => value
        | t => (.tuple, .tuple t)))
  | _, _ => none

/-- The book of the requests whose promises wait, and the promises that are settled. -/
structure Ledger where
  book : Book ℕ := {}
  made : ℕ := 0
  settled : List (ℕ × Settlement) := []

/-- What happens to the book. -/
def Event.op (made : ℕ) : Event → Op ℕ
  | .call => .call made
  | .send answered => .send answered
  | .subscribe .. | .unsubscribe .. => .send false
  | .reply n .. => .answer n

def Ledger.step (a : Ledger) (e : Event) : Ledger where
  book := a.book.step (e.op a.made)
  made := match e with
    | .call => a.made + 1
    | _ => a.made
  settled := match e with
    | .reply n isError body =>
        match a.book.awaited n, settlement isError body with
        | some p, some x => a.settled ++ [(p, x)]
        | _, _ => a.settled
    | _ => a.settled

def ledger (es : List Event) : Ledger := es.foldl Ledger.step {}

/-- Replies are to messages that have had none, and no message has waited for one while `window`
others were sent. -/
def Timely (window : ℕ) : Ledger → List Event → Prop
  | _, [] => True
  | a, e :: es => (e.op a.made).Timely window a.book ∧ Timely window (a.step e) es

/-- A body that can be decoded; that of an error starts with a text. -/
structure Answerable (isError : Bool) (body : List DbusValue) : Prop where
  wellFormed : DbusValue.WellFormedFields body
  supported : SupportedFields body
  text : isError = true → ∃ v vs, body = v :: vs ∧ dbusTypeToDi v.type = .string

/-- The members of the connection follow the book. -/
structure Follows (serialOf : ℕ → UInt32) (window : ℕ) (s : State) (a : Ledger) : Prop where
  kept : a.book.Kept window
  sent : s.sent = a.book.sent
  made : s.made = a.made
  settled : s.settled = a.settled
  promises : s.connection.promises = a.book.tokens serialOf
  held : ∀ q ∈ a.book.waiting, s.promise (serialOf q.1) = q.2
  counted : Counted s.connection
  accounted : (a.settled.map Prod.fst ++ a.book.waiting.map Prod.snd).Perm (List.range a.made)

/-! ## What a reply does -/

/-- What is done for a reply whose promise is settled so. -/
def Settlement.action (serial : UInt32) : Settlement → Action
  | .resolved value => .resolve serial value
  | .rejected message => .reject serial message

variable {serialOf : ℕ → UInt32} {objects : ObjRef → DbusObject} {window : ℕ} {s s' : State}
  {a : Ledger} {e : Event} {es : List Event} {isError : Bool} {body : List DbusValue}
  {serial : UInt32} {pending : UInt32 → Bool} {action : Action}

theorem perform_action (s : State) (serial : UInt32) (x : Settlement) :
    perform s (x.action serial) = {s with connection := dbusFilterReply serial s.connection,
                                          settled := s.settled ++ [(s.promise serial, x)]} := by
  cases x <;> rfl

/-- A promise that waits is settled by the body. -/
theorem filter_pending (hpending : pending serial = true)
    (h : dbusFilter pending (header isError serial) body = .ok action) :
    ∃ x, settlement isError body = some x ∧ action = x.action serial := by
  cases isError with
  | true =>
      obtain ⟨t, ht, h⟩ := bind_eq_ok h
      rw [if_pos hpending] at h
      split at h
      · rename_i message rest
        exact ⟨.rejected message, by simp only [settlement, ht], (Except.ok.inj h).symm⟩
      · cases h
  | false =>
      obtain ⟨t, ht, h⟩ := bind_eq_ok h
      rw [if_pos hpending] at h
      split at h
      · rename_i value
        exact ⟨.resolved value, by simp only [settlement, ht], (Except.ok.inj h).symm⟩
      · rename_i hne
        refine ⟨.resolved (.tuple, .tuple t), ?_, (Except.ok.inj h).symm⟩
        simp only [settlement, ht]

/-- A reply that nothing waits for is left alone. -/
theorem filter_not_pending (hpending : pending serial = false)
    (h : dbusFilter pending (header isError serial) body = .ok action) : action = .noPromise := by
  cases isError with
  | true =>
      obtain ⟨t, ht, h⟩ := bind_eq_ok h
      rw [if_neg (Bool.eq_false_iff.mp hpending)] at h
      exact (Except.ok.inj h).symm
  | false =>
      obtain ⟨t, ht, h⟩ := bind_eq_ok h
      rw [if_neg (Bool.eq_false_iff.mp hpending)] at h
      exact (Except.ok.inj h).symm

theorem filter_answerable (h : Answerable isError body) (pending : UInt32 → Bool)
    (serial : UInt32) :
    ∃ action, dbusFilter pending (header isError serial) body = .ok action := by
  have hsound : FilterSound pending (header isError serial) body := by
    refine ((decoding_sound_iff h.wellFormed).2 pending _ ?_).mpr ⟨h.supported, ?_⟩
    · cases isError <;> exact Header.noConfusion
    · cases isError with
      | true => exact fun _ => h.text rfl
      | false => trivial
  exact hsound.2.imp fun _ haction => haction.1

/-! ## One step -/

theorem Follows.call (htoken : Recycled serialOf window) (h : Follows serialOf window s a)
    (htime : ∀ n ∈ a.book.unanswered, a.book.sent < n + window) :
    Follows serialOf window (callMethod (serialOf s.sent) s) (a.step .call) := by
  have hfresh : serialOf s.sent ∉ s.connection.promises := by
    rw [h.promises, h.sent]
    exact h.kept.token_sent htoken htime
  have hkept : (a.book.step (.call a.made)).Kept window := h.kept.step htime
  refine ⟨hkept, congrArg (· + 1) h.sent, congrArg (· + 1) h.made, h.settled, ?_, ?_,
    h.counted.request hfresh, ?_⟩
  · rw [Ledger.step, Event.op, Book.tokens_call, ← h.promises, ← h.sent]
    simp [callMethod, diDbusAddPromiseFor, diDbusNsignalInc, hfresh]
  · intro q hq
    rw [callMethod, if_neg hfresh]
    rcases List.mem_append.mp hq with hq | hq
    · have hne : serialOf q.1 ≠ serialOf s.sent := by
        intro heq
        rw [h.promises, ← heq] at hfresh
        exact hfresh (List.mem_map_of_mem (f := fun q => serialOf q.1) hq)
      exact (Function.update_of_ne hne ..).trans (h.held q hq)
    · obtain rfl := List.mem_singleton.mp hq
      rw [← h.sent, ← h.made]
      exact Function.update_self ..
  · have hperm := h.accounted.append_right [a.made]
    rw [List.append_assoc, ← List.range_succ] at hperm
    simpa [Ledger.step, Event.op, Book.step] using hperm

/-- A message that no promise waits for. -/
theorem Follows.message {c : Connection} {answered : Bool} (h : Follows serialOf window s a)
    (htime : ∀ n ∈ a.book.unanswered, a.book.sent < n + window)
    (hpromises : c.promises = s.connection.promises) (hcounted : Counted c) :
    Follows serialOf window {s with connection := c, sent := s.sent + 1}
      {a with book := a.book.step (.send answered)} where
  kept := show (a.book.step (.send answered)).Kept window from h.kept.step htime
  sent := congrArg (· + 1) h.sent
  made := h.made
  settled := h.settled
  promises := hpromises.trans h.promises
  held := h.held
  counted := hcounted
  accounted := h.accounted

theorem Follows.reply {n : ℕ} (htoken : Recycled serialOf window) (h : Follows serialOf window s a)
    (hn : n ∈ a.book.unanswered)
    (haction : dbusFilter (fun serial => serial ∈ s.connection.promises)
      (header isError (serialOf n)) body = .ok action) :
    Follows serialOf window (perform s action) (a.step (.reply n isError body)) := by
  have hkept : (a.book.step (.answer n)).Kept window := h.kept.step hn
  have htokens := h.kept.tokens_answer htoken hn
  have hwaits : serialOf n ∈ s.connection.promises ↔ n ∈ a.book.waiting.map Prod.fst := by
    rw [h.promises]
    exact h.kept.mem_tokens_iff htoken hn
  by_cases hmem : serialOf n ∈ s.connection.promises
  · obtain ⟨x, hx, rfl⟩ := filter_pending (decide_eq_true hmem) haction
    obtain ⟨q, hq, rfl⟩ := List.mem_map.mp (hwaits.mp hmem)
    have hawaited : a.book.awaited q.1 = some q.2 := h.kept.awaited_of_mem hq
    rw [perform_action, Ledger.step]
    simp only [hawaited, hx]
    refine ⟨hkept, h.sent, h.made, ?_, ?_, ?_, h.counted.reply _, ?_⟩
    · rw [h.settled, h.held q hq]
    · simp only [dbusFilterReply, if_pos hmem, diDbusNsignalDec]
      rw [h.promises, Event.op, htokens]
    · exact fun q' hq' => h.held q' (List.mem_of_mem_filter hq')
    · have hperm := (h.kept.waiting_answer hq).map Prod.snd
      rw [List.map_append, List.append_assoc]
      exact (hperm.append_left _).symm.trans h.accounted
  · obtain rfl := filter_not_pending (decide_eq_false hmem) haction
    have hawaited : a.book.awaited n = none :=
      Book.awaited_eq_none_iff.mpr fun hin => hmem (hwaits.mpr hin)
    have hwaiting : (a.book.step (.answer n)).waiting = a.book.waiting := by
      refine List.filter_eq_self.mpr fun q hq => decide_eq_true ?_
      rintro rfl
      exact hmem (hwaits.mpr (List.mem_map_of_mem hq))
    rw [Ledger.step]
    simp only [hawaited]
    refine ⟨hkept, h.sent, h.made, h.settled, ?_, ?_, h.counted, ?_⟩
    · rw [Event.op, htokens, ← h.promises, List.erase_of_not_mem hmem]
      rfl
    · exact fun q hq => h.held q (hwaiting ▸ hq)
    · rw [Event.op, hwaiting]
      exact h.accounted

theorem Follows.step (htoken : Recycled serialOf window) (h : Follows serialOf window s a)
    (htime : (e.op a.made).Timely window a.book) (hstep : Step serialOf objects s e s') :
    Follows serialOf window s' (a.step e) := by
  cases hstep with
  | call => exact h.call htoken htime
  | send answered => exact h.message htime rfl h.counted
  | subscribe hname hnew hset =>
      refine h.message htime ?_ (h.counted.newSignal hnew hset)
      rcases newSignal_cases hnew hset with rfl | ⟨-, -, hpromises, -⟩
      · rfl
      · exact hpromises
  | unsubscribe hmem hdel =>
      refine h.message htime ?_ (h.counted.delSignal hdel)
      rcases delSignal_cases hdel with rfl | ⟨_, -, -, -, hpromises, -⟩
      · rfl
      · exact hpromises
  | reply hfilter haction => exact h.reply htoken htime haction

/-! ## Runs -/

theorem follows_init : Follows serialOf window {} {} where
  kept := .empty
  sent := rfl
  made := rfl
  settled := rfl
  promises := rfl
  held := nofun
  counted := counted_init []
  accounted := .refl _

theorem Follows.run (htoken : Recycled serialOf window) (hrun : Steps serialOf objects s es s')
    (h : Follows serialOf window s a) (htime : Timely window a es) :
    Follows serialOf window s' (es.foldl Ledger.step a) := by
  induction hrun generalizing a with
  | nil => exact h
  | cons hstep _ ih => exact ih (h.step htoken htime.1 hstep) htime.2

/-- The filter is there for a promise that waits, and settles it. -/
theorem Follows.settles {q : ℕ × ℕ} (h : Follows serialOf window s a) (hq : q ∈ a.book.waiting)
    (hbody : Answerable isError body) :
    ∃ s' x, Step serialOf objects s (.reply q.1 isError body) s' ∧
      settlement isError body = some x ∧ s'.settled = s.settled ++ [(q.2, x)] := by
  have hmem : serialOf q.1 ∈ s.connection.promises := by
    rw [h.promises]
    exact List.mem_map_of_mem (f := fun q => serialOf q.1) hq
  have hinstalled : s.connection.installed = true := by
    rw [h.counted.installed, h.counted.count]
    have hpos := List.length_pos_of_mem hmem
    omega
  obtain ⟨action, haction⟩ := filter_answerable hbody
    (fun serial => serial ∈ s.connection.promises) (serialOf q.1)
  obtain ⟨x, hx, rfl⟩ := filter_pending (decide_eq_true hmem) haction
  refine ⟨_, x, .reply hinstalled haction, hx, ?_⟩
  rw [perform_action, h.held q hq]

/-- In every run in which serials are not used again for a message before the reply to the last
one came, the promises are settled as the ledger says: each by the reply to its own request, and
once. Those that are not settled wait, the filter is there for them, and the reply settles them. -/
theorem replies_settle_their_calls (htoken : Recycled serialOf window)
    (hrun : Steps serialOf objects {} es s) (htime : Timely window {} es) :
    s.settled = (ledger es).settled ∧
    (s.settled.map Prod.fst ++ (ledger es).book.waiting.map Prod.snd).Perm (List.range s.made) ∧
    s.connection.nsignals = (ledger es).book.waiting.length + s.connection.signals.length ∧
    ∀ q ∈ (ledger es).book.waiting, ∀ isError body, Answerable isError body →
      ∃ s' x, Step serialOf objects s (.reply q.1 isError body) s' ∧
        settlement isError body = some x ∧ s'.settled = s.settled ++ [(q.2, x)] := by
  have h := follows_init.run htoken hrun htime
  refine ⟨h.settled, ?_, ?_, fun q hq isError body hbody => h.settles hq hbody⟩
  · rw [h.settled, h.made]
    exact h.accounted
  · rw [h.counted.count, h.promises, Book.tokens, List.length_map]
    rfl

/-- The serials of a library that counts from one and leaves out zero. -/
theorem recycled_count : Recycled (fun n => (n % (2 ^ 32 - 1) + 1).toUInt32) (2 ^ 32 - 1) := by
  intro m n hlt hwindow heq
  have hnat := congrArg UInt32.toNat heq
  simp only [Nat.toUInt32_eq, UInt32.toNat_ofNat'] at hnat
  omega

/-- Two calls and a message in between. The replies come in another order. -/
theorem replies_settle_their_calls_example :
    ∃ s : State, s.settled.map Prod.fst = [1, 0] ∧ s.connection.nsignals = 0 := by
  let serialOf : ℕ → UInt32 := fun n => (n % (2 ^ 32 - 1) + 1).toUInt32
  let objects : ObjRef → DbusObject := fun _ => ⟨"/", ""⟩
  let es : List Event := [.call, .send true, .call, .reply 2 true [.string "no"],
    .reply 1 false [], .reply 0 false [.integer .int32 5]]
  have hrun : ∃ s, Steps serialOf objects {} es s ∧ s.connection.signals = [] :=
    ⟨_, .cons (.call _) <| .cons (.send _ _) <| .cons (.call _) <| .cons (.reply rfl rfl) <|
      .cons (.reply rfl rfl) <| .cons (.reply rfl rfl) <| .nil _, rfl⟩
  have htime : Timely (2 ^ 32 - 1) {} es := by
    simp [es, Timely, Ledger.step, Event.op, Book.step, Op.Timely]
  obtain ⟨s, hrun, hsignals⟩ := hrun
  obtain ⟨hsettled, -, hcount, -⟩ := replies_settle_their_calls recycled_count hrun htime
  refine ⟨s, ?_, ?_⟩
  · rw [hsettled]
    rfl
  · rw [hcount, hsignals]
    rfl

end Deai.DbusReplies
