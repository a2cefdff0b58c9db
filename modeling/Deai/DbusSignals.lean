import Deai.DbusEncoding
import Deai.SignalRuns
import Mathlib.Data.List.TakeWhile

/-!
# Subscriptions to the signals of D-Bus objects

A D-Bus object has a setter and a deleter that are called when the first listener is attached
to one of its signals and when the last one is stopped. They add a match rule to the bus and
remove it, and count the signal in `nsignals` of the connection. The same field counts the
requests that have no reply yet, and the watches and the filter of the connection are there as
long as it is positive.

The objects of a connection are one source of signals, whose names are pairs of an object and
the name of a signal.
-/
namespace Deai.DbusSignals
open Value Signal SignalRuns DbusEncoding Relation

/-- The members of an object that the functions here read. -/
structure DbusObject where
  objectPath : String
  interface : String

/-- A signal of an object. -/
abbrev Key := ObjRef × String

structure Connection where
  /-- The members `__signal_<name>` of the objects. -/
  signals : List (Key × SignalId) := []
  /-- The members `___keep_alive_<object>_<name>`. -/
  keepAlive : List Key := []
  /-- The members `promise_for_request_<serial>`. -/
  promises : List UInt32 := []
  nsignals : ℤ := 0
  /-- The watch functions and the filter are set. -/
  installed : Bool := false
  /-- The match rules that the bus holds for the connection. -/
  rules : List String := []

/-- A check of a member `___keep_alive_<object>_<name>` that fails. -/
inductive Failure where
  | exists
  | missing

/-! ## The functions -/

def diDbusNsignalInc (c : Connection) : Connection :=
  let n := c.nsignals + 1
  {c with nsignals := n, installed := if n = 1 then true else c.installed}

def diDbusNsignalDec (c : Connection) : Connection :=
  let n := c.nsignals - 1
  {c with nsignals := n, installed := if n = 0 then false else c.installed}

def toDbusMatchRule (path interface signal : String) : String :=
  if interface ≠ "" then
    "type='signal',path='" ++ cString path ++ "',interface='" ++ cString interface ++
      "',member='" ++ cString signal ++ "'"
  else "type='signal',path='" ++ cString path ++ "',member='" ++ cString signal ++ "'"

/-- The parts before and after the first `sep`. -/
def diStringSplitOnce (str : String) (sep : Char) : Option (String × String) :=
  match str.toList.dropWhile (· ≠ sep) with
  | [] => none
  | _ :: rest => some (String.ofList (str.toList.takeWhile (· ≠ sep)), String.ofList rest)

/-- The rule that `di_dbus_object_new_signal` adds. -/
def addedRule (o : DbusObject) (signal : String) : String :=
  toDbusMatchRule o.objectPath o.interface signal

/-- The rule that `di_dbus_object_del_signal` removes. -/
def removedRule (o : DbusObject) (signal : String) : String :=
  match diStringSplitOnce signal '.' with
  | some (interface, member) => toDbusMatchRule o.objectPath interface member
  | none => toDbusMatchRule o.objectPath "" signal

section Functions
variable (objects : ObjRef → DbusObject)

def diDbusObjectNewSignal (k : Key) (x : SignalId) (c : Connection) : Except Failure Connection :=
  if k.2 = "" then .ok c
  else
    let c := {c with rules := addedRule (objects k.1) k.2 :: c.rules}
    -- a member that is there already stays, and the result is not checked
    let c := if k ∈ c.signals.map Prod.fst then c else {c with signals := c.signals ++ [(k, x)]}
    let c := diDbusNsignalInc c
    if (k.1, cString k.2) ∈ c.keepAlive then .error .exists
    else .ok {c with keepAlive := c.keepAlive ++ [(k.1, cString k.2)]}

def diDbusObjectDelSignal (k : Key) (c : Connection) : Except Failure Connection :=
  match c.signals.find? (·.1 == k) with
  | none => .ok c
  | some p =>
      let c := {c with signals := c.signals.erase p}
      if k.2 = "" then .ok c
      else
        let c := diDbusNsignalDec
          {c with rules := c.rules.erase (removedRule (objects k.1) k.2)}
        if (k.1, cString k.2) ∈ c.keepAlive then
          .ok {c with keepAlive := c.keepAlive.erase (k.1, cString k.2)}
        else .error .missing

/-- `di_dbus_add_promise_for`, for a request that was sent with this serial. -/
def diDbusAddPromiseFor (serial : UInt32) (c : Connection) : Connection :=
  diDbusNsignalInc
    (if serial ∈ c.promises then c else {c with promises := c.promises ++ [serial]})

/-- `dbus_filter` on a reply or an error. -/
def dbusFilterReply (serial : UInt32) (c : Connection) : Connection :=
  if serial ∈ c.promises then
    diDbusNsignalDec {c with promises := c.promises.erase serial}
  else c

/-- The signals of the objects. -/
def source : Source Key Connection Failure where
  member c k := (c.signals.find? (·.1 == k)).map (·.2)
  set := diDbusObjectNewSignal objects
  delete := diDbusObjectDelSignal objects
  alive _ := true

/-- Requests and replies. The serial of a request is not one whose reply is awaited. -/
inductive Traffic (s : State Key Connection) : Connection → Prop where
  | request (serial : UInt32) (h : serial ∉ s.world.promises) :
      Traffic s (diDbusAddPromiseFor serial s.world)
  | reply (serial : UInt32) : Traffic s (dbusFilterReply serial s.world)

end Functions

/-! ## The rules -/

theorem toList_cString (t : String) :
    (cString t).toList = t.toList.takeWhile fun c => c ≠ Char.ofNat 0 := by
  simp [cString]

theorem cString_of_not_mem {t : String} (h : Char.ofNat 0 ∉ t.toList) : cString t = t := by
  apply String.toList_inj.mp
  rw [toList_cString, List.takeWhile_eq_self_iff]
  intro c hc
  have hne : c ≠ Char.ofNat 0 := fun heq => h (heq ▸ hc)
  simpa using hne

theorem splitOnce_none {t : String} {sep : Char} (h : sep ∉ t.toList) :
    diStringSplitOnce t sep = none := by
  have hdrop : t.toList.dropWhile (· ≠ sep) = [] := by
    rw [List.dropWhile_eq_nil_iff]
    intro c hc
    have hne : c ≠ sep := fun heq => h (heq ▸ hc)
    simpa using hne
  rw [diStringSplitOnce, hdrop]

/-- The parts of a string that has the separator. -/
theorem splitOnce_some {t : String} {sep : Char} (h : sep ∈ t.toList) :
    ∃ head rest, diStringSplitOnce t sep = some (head, rest) ∧
      t.toList = head.toList ++ sep :: rest.toList := by
  have happ := List.takeWhile_append_dropWhile (p := fun c => decide (c ≠ sep)) (l := t.toList)
  cases hdrop : t.toList.dropWhile (· ≠ sep) with
  | nil =>
      rw [List.dropWhile_eq_nil_iff] at hdrop
      exact absurd rfl (of_decide_eq_true (hdrop sep h))
  | cons c rest =>
      have hc : c = sep := by
        have hhead := List.head_dropWhile_not (fun c => decide (c ≠ sep)) (l := t.toList) (by
          rw [hdrop]
          exact List.cons_ne_nil c rest)
        simp only [hdrop, List.head_cons] at hhead
        simpa using hhead
      rw [hdrop, hc] at happ
      refine ⟨String.ofList (t.toList.takeWhile (· ≠ sep)), String.ofList rest, ?_, ?_⟩
      · rw [diStringSplitOnce, hdrop]
      · rw [String.toList_ofList, String.toList_ofList]
        exact happ.symm

/-- A rule that names an interface is not one that names none. -/
theorem rule_interface_ne (path interface signal signal' : String) (h : interface ≠ "") :
    toDbusMatchRule path interface signal ≠ toDbusMatchRule path "" signal' := by
  intro heq
  rw [toDbusMatchRule, toDbusMatchRule, if_pos h, if_neg (by simp)] at heq
  have hlist := congrArg String.toList heq
  simp only [String.toList_append, List.append_assoc] at hlist
  have htail := List.append_cancel_left (List.append_cancel_left hlist)
  have hchar := congrArg (·[2]?) htail
  rw [List.getElem?_append_left (by decide), List.getElem?_append_left (by decide)] at hchar
  exact absurd hchar (by decide)

theorem rule_length (path interface signal : String) :
    (toDbusMatchRule path interface signal).length =
      "type='signal',path='',member=''".length + (cString path).length + (cString signal).length +
        if interface ≠ "" then "interface='',".length + (cString interface).length else 0 := by
  unfold toDbusMatchRule
  split_ifs with h
  · simp only [String.length_append]
    have h1 : "type='signal',path='".length = 20 := rfl
    have h2 : "',interface='".length = 13 := rfl
    have h3 : "',member='".length = 10 := rfl
    have h4 : "'".length = 1 := rfl
    have h5 : "type='signal',path='',member=''".length = 31 := rfl
    have h6 : "interface='',".length = 13 := rfl
    omega
  · simp only [String.length_append]
    have h1 : "type='signal',path='".length = 20 := rfl
    have h3 : "',member='".length = 10 := rfl
    have h4 : "'".length = 1 := rfl
    have h5 : "type='signal',path='',member=''".length = 31 := rfl
    omega

/-- The two functions build the same rule only for an object without an interface, and a name
of a signal that is not qualified. -/
theorem removedRule_eq_iff (o : DbusObject) {n : String} (hn : Char.ofNat 0 ∉ n.toList) :
    removedRule o n = addedRule o n ↔ o.interface = "" ∧ '.' ∉ n.toList := by
  constructor
  · intro heq
    by_cases hdot : '.' ∈ n.toList
    · obtain ⟨head, rest, hsplit, hlist⟩ := splitOnce_some hdot
      have hlen : n.length = head.length + 1 + rest.length := by
        rw [← String.length_toList, hlist, List.length_append, List.length_cons,
          String.length_toList, String.length_toList]
        omega
      have hhead : cString head = head := cString_of_not_mem fun hmem => hn (by simp [hlist, hmem])
      have hrest : cString rest = rest := cString_of_not_mem fun hmem => hn (by simp [hlist, hmem])
      rw [removedRule, hsplit] at heq
      simp only [addedRule] at heq
      -- the part before the dot is one time in the removed rule, and once more in the added one
      have hrule := congrArg String.length heq
      rw [rule_length, rule_length, hrest, cString_of_not_mem hn, hlen, hhead] at hrule
      by_cases hi : o.interface = ""
      · rw [hi] at heq hrule
        by_cases hh : head = ""
        · rw [hh] at hrule
          simp at hrule
        · exact absurd heq (rule_interface_ne _ _ _ _ hh)
      · by_cases hh : head = ""
        · rw [hh] at heq
          exact absurd heq.symm (rule_interface_ne _ _ _ _ hi)
        · rw [if_pos hi, if_pos hh] at hrule
          omega
    · refine ⟨?_, hdot⟩
      rw [removedRule, splitOnce_none hdot] at heq
      by_contra hi
      exact rule_interface_ne _ _ _ _ hi heq.symm
  · rintro ⟨hi, hdot⟩
    rw [removedRule, splitOnce_none hdot, addedRule, hi]

/-! ## The counts -/

structure Counted (c : Connection) : Prop where
  keys : (c.signals.map Prod.fst).Nodup
  named : ∀ p ∈ c.signals, p.1.2 ≠ ""
  promises : c.promises.Nodup
  count : c.nsignals = c.promises.length + c.signals.length
  installed : c.installed = true ↔ 0 < c.nsignals

theorem counted_init (rules : List String) : Counted {rules := rules} where
  keys := List.nodup_nil
  named := nofun
  promises := List.nodup_nil
  count := rfl
  installed := by simp

theorem installed_inc {c : Connection} (h : c.installed = true ↔ 0 < c.nsignals)
    (hn : 0 ≤ c.nsignals) :
    (diDbusNsignalInc c).installed = true ↔ 0 < (diDbusNsignalInc c).nsignals := by
  simp only [diDbusNsignalInc]
  split_ifs with hone
  · simp [hone]
  · rw [h]
    omega

theorem installed_dec {c : Connection} (h : c.installed = true ↔ 0 < c.nsignals)
    (hn : 0 < c.nsignals) :
    (diDbusNsignalDec c).installed = true ↔ 0 < (diDbusNsignalDec c).nsignals := by
  simp only [diDbusNsignalDec]
  split_ifs with hzero
  · simp [hzero]
  · rw [h]
    omega

section Steps
variable {objects : ObjRef → DbusObject} {k : Key} {x : SignalId} {c c' : Connection}

theorem member_none (h : (source objects).member c k = none) : k ∉ c.signals.map Prod.fst := by
  intro hmem
  obtain ⟨p, hp, rfl⟩ := List.mem_map.mp hmem
  simp only [source, Option.map_eq_none_iff, List.find?_eq_none] at h
  exact h p hp (by simp)

/-- What the setter does to a signal that has no member. -/
theorem newSignal_cases (hk : k ∉ c.signals.map Prod.fst)
    (h : diDbusObjectNewSignal objects k x c = .ok c') :
    c' = c ∨ k.2 ≠ "" ∧ c'.signals = c.signals ++ [(k, x)] ∧ c'.promises = c.promises ∧
      c'.nsignals = c.nsignals + 1 ∧
      c'.installed = (if c.nsignals + 1 = 1 then true else c.installed) ∧
      c'.rules = addedRule (objects k.1) k.2 :: c.rules := by
  unfold diDbusObjectNewSignal at h
  split_ifs at h with hempty
  · cases h
    exact .inl rfl
  · simp only [if_neg hk] at h
    split_ifs at h
    cases h
    exact .inr ⟨hempty, rfl, rfl, rfl, rfl, rfl⟩

/-- What the deleter does. -/
theorem delSignal_cases (h : diDbusObjectDelSignal objects k c = .ok c') :
    c' = c ∨ ∃ p ∈ c.signals, p.1 = k ∧ c'.signals = c.signals.erase p ∧
      c'.promises = c.promises ∧
      (k.2 = "" ∨ c'.nsignals = c.nsignals - 1 ∧
        c'.installed = (if c.nsignals - 1 = 0 then false else c.installed) ∧
        c'.rules = c.rules.erase (removedRule (objects k.1) k.2)) := by
  unfold diDbusObjectDelSignal at h
  split at h
  · cases h
    exact .inl rfl
  · rename_i p hp
    have hmem := List.mem_of_find?_eq_some hp
    have hpk : p.1 = k := by simpa using List.find?_some hp
    dsimp only at h
    split_ifs at h with hempty
    · cases h
      exact .inr ⟨p, hmem, hpk, rfl, rfl, .inl hempty⟩
    · cases h
      exact .inr ⟨p, hmem, hpk, rfl, rfl, .inr ⟨rfl, rfl, rfl⟩⟩

theorem Counted.newSignal (h : Counted c) (hk : k ∉ c.signals.map Prod.fst)
    (hset : diDbusObjectNewSignal objects k x c = .ok c') : Counted c' := by
  rcases newSignal_cases hk hset with rfl | ⟨hname, hsignals, hpromises, hn, hinst, -⟩
  · exact h
  · have hpos : 0 ≤ c.nsignals := by
      rw [h.count]
      positivity
    have hinc := installed_inc h.installed hpos
    simp only [diDbusNsignalInc] at hinc
    refine ⟨?_, ?_, hpromises ▸ h.promises, ?_, ?_⟩
    · rw [hsignals, List.map_append]
      simpa using h.keys.concat hk
    · intro p hp
      rw [hsignals, List.mem_append, List.mem_singleton] at hp
      rcases hp with hp | rfl
      · exact h.named p hp
      · exact hname
    · rw [hn, h.count, hpromises, hsignals, List.length_append, List.length_singleton]
      push_cast
      ring
    · rw [hinst, hn]
      exact hinc

theorem Counted.delSignal (h : Counted c)
    (hdel : diDbusObjectDelSignal objects k c = .ok c') : Counted c' := by
  rcases delSignal_cases hdel with rfl | ⟨p, hp, hpk, hsignals, hpromises, hrest⟩
  · exact h
  · have hname : k.2 ≠ "" := hpk ▸ h.named p hp
    obtain ⟨hn, hinst, -⟩ := hrest.resolve_left hname
    have hlen := List.length_erase_of_mem hp
    have hpos := List.length_pos_of_mem hp
    have hcount := h.count
    have hdec := installed_dec h.installed (by omega)
    simp only [diDbusNsignalDec] at hdec
    refine ⟨?_, ?_, hpromises ▸ h.promises, ?_, ?_⟩
    · rw [hsignals]
      exact h.keys.sublist (List.erase_sublist.map _)
    · intro q hq
      rw [hsignals] at hq
      exact h.named q (List.mem_of_mem_erase hq)
    · rw [hn, hpromises, hsignals]
      omega
    · rw [hinst, hn]
      exact hdec

theorem Counted.request (h : Counted c) {serial : UInt32} (hs : serial ∉ c.promises) :
    Counted (diDbusAddPromiseFor serial c) := by
  have hpos : 0 ≤ c.nsignals := by
    rw [h.count]
    positivity
  rw [diDbusAddPromiseFor, if_neg hs]
  refine ⟨h.keys, h.named, ?_, ?_, installed_inc h.installed hpos⟩
  · simpa [diDbusNsignalInc] using h.promises.concat hs
  · simp only [diDbusNsignalInc, h.count, List.length_append, List.length_singleton]
    push_cast
    ring

theorem Counted.reply (h : Counted c) (serial : UInt32) : Counted (dbusFilterReply serial c) := by
  unfold dbusFilterReply
  split_ifs with hs
  · have hlen := List.length_erase_of_mem hs
    have hpos := List.length_pos_of_mem hs
    have hcount := h.count
    refine ⟨h.keys, h.named, h.promises.erase serial, ?_, installed_dec h.installed ?_⟩
    · simp only [diDbusNsignalDec]
      omega
    · simp only
      omega
  · exact h

end Steps

/-! ## The rules of the bus -/

/-- The bus holds the first rules of the connection, and one rule for every signal. -/
structure Undone (objects : ObjRef → DbusObject) (first : List String) (c : Connection) :
    Prop where
  same : ∀ p ∈ c.signals,
    removedRule (objects p.1.1) p.1.2 = addedRule (objects p.1.1) p.1.2
  rules : c.rules.Perm (c.signals.map (fun p => addedRule (objects p.1.1) p.1.2) ++ first)

section Rules
variable {objects : ObjRef → DbusObject} {first : List String} {k : Key} {x : SignalId}
  {c c' : Connection}

theorem Undone.newSignal (h : Undone objects first c) (hk : k ∉ c.signals.map Prod.fst)
    (hrule : removedRule (objects k.1) k.2 = addedRule (objects k.1) k.2)
    (hset : diDbusObjectNewSignal objects k x c = .ok c') : Undone objects first c' := by
  rcases newSignal_cases hk hset with rfl | ⟨-, hsignals, -, -, -, hrules⟩
  · exact h
  · constructor
    · intro p hp
      rw [hsignals, List.mem_append, List.mem_singleton] at hp
      rcases hp with hp | rfl
      · exact h.same p hp
      · exact hrule
    · rw [hrules, hsignals, List.map_append, List.append_assoc]
      exact (h.rules.cons _).trans List.perm_middle.symm

theorem Undone.delSignal (h : Undone objects first c) (hc : Counted c)
    (hdel : diDbusObjectDelSignal objects k c = .ok c') : Undone objects first c' := by
  rcases delSignal_cases hdel with rfl | ⟨p, hp, rfl, hsignals, -, hrest⟩
  · exact h
  · obtain ⟨-, -, hrules⟩ := hrest.resolve_left (hc.named p hp)
    constructor
    · intro q hq
      rw [hsignals] at hq
      exact h.same q (List.mem_of_mem_erase hq)
    · have hperm := (List.perm_cons_erase hp).map fun q => addedRule (objects q.1.1) q.1.2
      have hall := (h.rules.trans (hperm.append_right first)).erase
        (addedRule (objects p.1.1) p.1.2)
      rw [List.map_cons, List.cons_append, List.erase_cons_head] at hall
      rw [hrules, hsignals, h.same p hp]
      exact hall

end Rules

/-! ## Runs -/

section Runs
variable {objects : ObjRef → DbusObject} {s s' : State Key Connection}

/-- Listeners are attached only to objects without an interface, and to signals whose name is
not qualified. -/
def Unqualified (objects : ObjRef → DbusObject) (_ : State Key Connection) :
    Action Key → Prop
  | .listen k _ => (objects k.1).interface = "" ∧ '.' ∉ k.2.toList
  | _ => True

theorem act_counted {a : Action Key} (hstep : Step (source objects) s a s')
    (h : Counted s.world) : Counted s'.world := by
  cases step_world hstep with
  | same hw => exact hw ▸ h
  | set k f halive hk hw => exact h.newSignal (member_none hk) hw
  | delete y stack hstack halive hone hw => exact h.delSignal hw

theorem traffic_counted {c : Connection} (htraffic : Traffic s c) (h : Counted s.world) :
    Counted c := by
  cases htraffic with
  | request serial hs => exact h.request hs
  | reply serial => exact h.reply serial

theorem run_counted {P : State Key Connection → Action Key → Prop}
    (hrun : ReflTransGen (Move (source objects) P Traffic) s s') (h : Counted s.world) :
    Counted s'.world := by
  induction hrun with
  | refl => exact h
  | tail _ hmove ih =>
      cases hmove with
      | act a ha hstep => exact act_counted hstep ih
      | env w hw => exact traffic_counted hw ih

theorem act_undone {first : List String} {a : Action Key} (ha : Unqualified objects s a)
    (hstep : Step (source objects) s a s') (hc : Counted s.world)
    (h : Undone objects first s.world) : Undone objects first s'.world := by
  cases step_world hstep with
  | same hw => exact hw ▸ h
  | set k f halive hk hw =>
      refine h.newSignal (member_none hk) ?_ hw
      rw [removedRule, splitOnce_none ha.2, addedRule, ha.1]
  | delete y stack hstack halive hone hw => exact h.delSignal hc hw

theorem traffic_undone {first : List String} {c : Connection} (htraffic : Traffic s c)
    (h : Undone objects first s.world) : Undone objects first c := by
  cases htraffic with
  | request serial hs =>
      rw [diDbusAddPromiseFor, if_neg hs]
      exact ⟨h.same, h.rules⟩
  | reply serial =>
      unfold dbusFilterReply
      split_ifs
      · exact ⟨h.same, h.rules⟩
      · exact h

theorem run_undone {first : List String}
    (hrun : ReflTransGen (Move (source objects) (Unqualified objects) Traffic) s s')
    (hc : Counted s.world) (h : Undone objects first s.world) : Undone objects first s'.world := by
  induction hrun with
  | refl => exact h
  | tail hpre hmove ih =>
      cases hmove with
      | act a ha hstep => exact act_undone ha hstep (run_counted hpre hc) ih
      | env w hw => exact traffic_undone hw ih

end Runs

/-- The connection when it has been made, with the rules that it has asked for. -/
def connected (first : List String) (signals : SignalId → SignalObject Key) :
    State Key Connection where
  world := {rules := first}
  signals := signals

instance (objects : ObjRef → DbusObject) (s : State Key Connection) :
    ∀ a, Decidable (Unqualified objects s a)
  | .listen k _ => inferInstanceAs (Decidable ((objects k.1).interface = "" ∧ '.' ∉ k.2.toList))
  | .stop .. | .autoStop .. | .drop .. | .hold .. | .release .. | .add .. | .remove .. |
    .emit .. | .callNext | .handlerReturns | .endEmission | .endRemoval => .isTrue trivial

/-- Two listeners of two signals, one of them stopped. -/
def twoSignals : List (Action Key) :=
  [.listen (0, "Bar") 5, .listen (0, "Baz") 6, .stop 0, .endRemoval]

/-- A listener is attached to a signal of an object with an interface, and stopped. -/
def qualifiedSignal : List (Action Key) := [.listen (0, "Bar") 5, .stop 0, .endRemoval]

end Deai.DbusSignals
