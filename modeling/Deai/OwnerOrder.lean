import Deai.OwnerHistory

/-!
# The order of messages and handlers

Replies that wait for their handlers are popped from the end of the queue, and a signal that is
filtered meanwhile is overwritten. The records follow the order of the messages if and only if the
handler that runs last for a name tells the owner that the last message about the name has stated.
-/
namespace Deai.OwnerOrder
open DbusOwners hiding exec Move
open OwnerDirectories DesyncedOwners OwnerQueries OwnerHistory Relation

variable {s s' : State} {d : DirectoryId} {seen : String → String}

/-! ## Runs -/

/-- The handler that runs last for a name records the owner that the last message about the name
states. -/
def Timely (s : State) : Event → Prop
  | .dispatch => ∀ w rest, s.pending = w :: rest → ∀ owner, w.owner = some owner →
      ¬ Waits s rest (nameOf s w) → isUnique (nameOf s w) = false →
        stated s.filtered (nameOf s w) = some owner
  | _ => True

theorem setOwner_ok (o : ObjectId) (owner : String) (s : State) :
    ∃ s', diDbusObjectSetOwner o owner s = .ok s' := by
  simp only [diDbusObjectSetOwner]
  obtain ⟨c', hcall⟩ := nameChanged_ok
    (s.connection.directories (s.objects o).objectCache).busName
    ((s.connection.directories (s.objects o).objectCache).ownerName.getD "") owner s.connection
  rw [hcall]
  exact ⟨_, rfl⟩

theorem filter_ok (m : Message) (s : State) : ∃ s', dbusFilter m s = .ok s' := by
  cases m with
  | nameOwnerChanged n old new =>
      obtain ⟨c', hcall⟩ := nameChanged_ok n old new s.connection
      simp only [dbusFilter, hcall]
      exact ⟨_, rfl⟩
  | methodReturn r owner => exact ⟨_, rfl⟩
  | error r => exact ⟨_, rfl⟩

/-- No assertion fails. -/
theorem exec_ok (a : Event) (s : State) : ∃ s', exec a s = .ok s' := by
  cases a with
  | filter =>
      cases hinbox : s.inbox with
      | nil =>
          simp only [exec, hinbox]
          exact ⟨_, rfl⟩
      | cons m rest =>
          simp only [exec, hinbox]
          exact filter_ok m _
  | dispatch =>
      cases hpending : s.pending with
      | nil =>
          simp only [exec, hpending]
          exact ⟨_, rfl⟩
      | cons w rest =>
          simp only [exec, hpending]
          cases w.owner with
          | none => exact ⟨_, rfl⟩
          | some owner => exact setOwner_ok _ _ _
  | _ => exact ⟨_, rfl⟩

theorem tracks_filter (h : Tracks s seen) {m : Message} {rest : List Message}
    (hinbox : s.inbox = m :: rest)
    (hfilter : dbusFilter m {s with inbox := rest, filtered := m.states :: s.filtered} = .ok s') :
    ∃ seen, Tracks s' seen := by
  have hcoherent := h.coherent
  rw [hinbox] at hcoherent
  cases m with
  | nameOwnerChanged n old new =>
      simp only [dbusFilter] at hfilter
      split at hfilter
      next c' hcall =>
        cases hfilter
        exact ⟨_, (h.signal hinbox hcall).emitSignal⟩
      next => cases hfilter
  | methodReturn r owner =>
      obtain ⟨howner, hrest⟩ := hcoherent
      cases hfilter
      exact ⟨seen, h.settle hinbox rfl (by rw [← howner]; rfl) hrest nofun⟩
  | error r =>
      obtain ⟨howner, hrest⟩ := hcoherent
      cases hfilter
      exact ⟨seen, h.settle hinbox rfl (by rw [howner]; rfl) hrest fun _ => howner⟩

theorem tracks_exec (h : Tracks s seen) {a : Event} (hallowed : Allowed s a) (htimely : Timely s a)
    (hexec : exec a s = .ok s') : ∃ seen, Tracks s' seen := by
  cases a with
  | get bus key sent =>
      cases hexec
      exact ⟨seen, h.get bus key sent⟩
  | release o =>
      cases hexec
      exact ⟨seen, h.release hallowed.2⟩
  | ownerChanges n new =>
      cases hexec
      exact ⟨seen, h.ownerChanges n new⟩
  | answers r =>
      cases hexec
      exact ⟨seen, h.answers hallowed⟩
  | filter =>
      cases hinbox : s.inbox with
      | nil => exact absurd hinbox hallowed.2
      | cons m rest =>
          simp only [exec, hinbox] at hexec
          exact tracks_filter h hinbox hexec
  | dispatch =>
      cases hpending : s.pending with
      | nil => exact absurd hpending hallowed.2
      | cons w rest =>
          simp only [exec, hpending] at hexec
          cases howner : w.owner with
          | none =>
              simp only [howner, Except.ok.injEq] at hexec
              rw [← hexec]
              exact ⟨seen, h.rejected hpending howner⟩
          | some owner =>
              simp only [howner] at hexec
              exact ⟨seen, h.resolved hpending (htimely w rest hpending owner howner) hexec⟩
  | idleStarts =>
      cases hexec
      exact ⟨seen, {h with}⟩
  | idleEnds =>
      cases hexec
      exact ⟨seen, {h with}⟩

theorem tracks_of_run {owners : String → String}
    (hrun : ReflTransGen (Move Timely) (start owners) s) : ∃ seen, Tracks s seen := by
  induction hrun with
  | refl => exact ⟨owners, tracks_start owners⟩
  | tail _ hmove ih =>
      obtain ⟨seen, htracks⟩ := ih
      obtain ⟨a, hallowed, htimely, hexec⟩ := hmove
      exact tracks_exec htracks hallowed htimely hexec

/-! ## The order of the messages -/

/-- All messages have been filtered, and no handler waits. -/
def Quiet (s : State) : Prop := s.inbox = [] ∧ s.pending = []

/-- The owner that the last message about a name states is recorded. -/
def Follows (s : State) : Prop :=
  ∀ d, Live s.connection d → isUnique (s.connection.directories d).busName = false →
    ∀ owner, stated s.filtered (s.connection.directories d).busName = some owner →
      (s.connection.directories d).ownerName = recordOf owner

/-- A message that names an owner has been filtered since the directory was made, if there was
one. -/
def Told (s : State) : Prop :=
  ∀ d, Live s.connection d → isUnique (s.connection.directories d).busName = false →
    ∀ owner, stated s.filtered (s.connection.directories d).busName = some owner →
      owner = "" ∨ Heard s d

theorem stated_of_heard (h : Heard s d) :
    ∃ owner, stated s.filtered (s.connection.directories d).busName = some owner := by
  obtain ⟨m, hm, hname⟩ := h
  have hsome : (s.filtered.find? fun m => m.1 == (s.connection.directories d).busName).isSome := by
    rw [List.find?_isSome]
    exact ⟨m, List.mem_of_mem_take hm, by simpa using hname⟩
  obtain ⟨found, hfound⟩ := Option.isSome_iff_exists.mp hsome
  exact ⟨found.2, by rw [stated, hfound]; rfl⟩

theorem follows_iff (h : Tracks s seen) (hquiet : Quiet s) : Follows s ↔ Told s := by
  have hrecorded : ∀ d, Live s.connection d →
      isUnique (s.connection.directories d).busName = false →
        (Heard s d → (s.connection.directories d).ownerName =
          recordOf (seen (s.connection.directories d).busName)) ∧
        (¬ Heard s d → (s.connection.directories d).ownerName = none) := by
    intro d hd hunique
    refine h.recorded d hd hunique ?_
    rintro ⟨w, hw, -⟩
    rw [hquiet.2] at hw
    cases hw
  constructor
  · intro hfollows d hd hunique owner howner
    by_cases hheard : Heard s d
    · exact .inr hheard
    · have hnone := (hrecorded d hd hunique).2 hheard
      rw [hfollows d hd hunique owner howner] at hnone
      exact .inl (recordOf_inj (hnone.trans (by simp [recordOf])))
  · intro htold d hd hunique owner howner
    by_cases hheard : Heard s d
    · rw [(hrecorded d hd hunique).1 hheard, h.history _ owner howner]
    · rw [(hrecorded d hd hunique).2 hheard, (htold d hd hunique owner howner).resolve_right hheard]
      simp [recordOf]

/-- A handler that comes too late leaves an owner that is not the last one. -/
theorem timely_of_follows (h : Tracks s seen) {a : Event}
    (hexec : exec a s = .ok s') (hfollows : Follows s') : Timely s a := by
  cases a with
  | dispatch =>
      intro w rest hpending owner howner _ hunique
      simp only [exec, hpending, howner] at hexec
      obtain ⟨c', rfl, hsame, hrecords⟩ := setOwner_spec hexec
      obtain ⟨hw, hheard⟩ := h.waiting w (by rw [hpending]; exact List.mem_cons_self)
      have hlive := (h.living _ hw).2
      obtain ⟨last, hlast⟩ := stated_of_heard hheard
      have hfollow := hfollows (s.objects w.object).objectCache (hsame.live.mpr hlive)
      simp only [hsame.busName] at hfollow
      have hrecord := hfollow hunique last hlast
      rw [hrecords _, if_pos ⟨hunique, h.cached.cache _ hlive, hlive⟩] at hrecord
      rw [recordOf_inj hrecord]
      exact hlast
  | _ => trivial

/-- As long as no handler comes too late, the records follow the order of the messages once all is
quiet, but for a name that no message has been about since its directory was made. No other
handler is in time. -/
theorem recorded_owner_follows_messages (owners : String → String)
    (hrun : ReflTransGen (Move Timely) (start owners) s) :
    (Quiet s → (Follows s ↔ Told s)) ∧
      ∀ a, Allowed s a → ∃ s', exec a s = .ok s' ∧
        (Quiet s' → (Follows s' ↔ Timely s a ∧ Told s')) := by
  obtain ⟨seen, h⟩ := tracks_of_run hrun
  refine ⟨follows_iff h, ?_⟩
  intro a hallowed
  obtain ⟨s', hexec⟩ := exec_ok a s
  refine ⟨s', hexec, fun hquiet => ?_⟩
  constructor
  · intro hfollows
    have htimely := timely_of_follows h hexec hfollows
    obtain ⟨seen', h'⟩ := tracks_exec h hallowed htimely hexec
    exact ⟨htimely, (follows_iff h' hquiet).mp hfollows⟩
  · rintro ⟨htimely, htold⟩
    obtain ⟨seen', h'⟩ := tracks_exec h hallowed htimely hexec
    exact (follows_iff h' hquiet).mpr htold

/-! ## A reply and a signal -/

/-- The state after an event that does not fail. -/
def after (a : Event) (s : State) : State :=
  match exec a s with
  | .ok s' => s'
  | .error _ => s

def run (events : List Event) (s : State) : State := events.foldl (fun s a => after a s) s

/-- Every event is allowed and meets `P`. -/
def Runs (P : State → Event → Prop) : List Event → State → Prop
  | [], _ => True
  | a :: rest, s => Allowed s a ∧ P s a ∧ Runs P rest (after a s)

theorem exec_after (a : Event) (s : State) : exec a s = .ok (after a s) := by
  obtain ⟨s', hexec⟩ := exec_ok a s
  rw [after, hexec]

theorem reaches_run {P : State → Event → Prop} {events : List Event} (h : Runs P events s) :
    ReflTransGen (Move P) s (run events s) := by
  induction events generalizing s with
  | nil => exact .refl
  | cons a rest ih =>
      obtain ⟨hallowed, hp, hrest⟩ := h
      exact .head ⟨a, hallowed, hp, exec_after a s⟩ (ih hrest)

/-- The name has an owner. -/
def oneOwner (name : String) : String := if name = "org.a" then ":1.5" else ""

def inOrder : List Event :=
  [.get "org.a" "/@org.a" true, .answers ⟨0, "org.a"⟩, .filter, .idleStarts, .dispatch, .idleEnds,
    .ownerChanges "org.a" ":1.7", .filter]

theorem runs_inOrder : Runs Timely inOrder (start oneOwner) := by
  refine ⟨trivial, trivial, List.mem_cons_self, trivial, ⟨rfl, nofun⟩, trivial, rfl, trivial,
    ⟨rfl, nofun⟩, ?_, ⟨rfl, rfl⟩, trivial, trivial, trivial, ⟨rfl, nofun⟩, trivial, trivial⟩
  intro w rest hpending owner howner _ _
  cases hpending
  cases howner
  rfl

theorem told_inOrder : Told (run inOrder (start oneOwner)) := by
  intro d hd _ _ _
  obtain ⟨seen, h⟩ := tracks_of_run (reaches_run runs_inOrder)
  have hlt : d < 1 := h.cached.bound d hd
  rw [Nat.lt_one_iff.mp hlt]
  exact .inr ⟨_, List.mem_cons_self, rfl⟩

theorem recorded_owner_inOrder :
    ((run inOrder (start oneOwner)).connection.directories 0).ownerName = some ":1.7" ∧
      Quiet (run inOrder (start oneOwner)) ∧ Follows (run inOrder (start oneOwner)) := by
  have hquiet : Quiet (run inOrder (start oneOwner)) := ⟨rfl, rfl⟩
  obtain ⟨hiff, -⟩ := recorded_owner_follows_messages oneOwner (reaches_run runs_inOrder)
  exact ⟨rfl, hquiet, (hiff hquiet).mpr told_inOrder⟩

/-- The signal is filtered before the handler of the reply runs. -/
def tooLate : List Event :=
  [.get "org.a" "/@org.a" true, .answers ⟨0, "org.a"⟩, .ownerChanges "org.a" ":1.7", .filter,
    .filter, .idleStarts, .dispatch, .idleEnds]

theorem late_reply_recorded :
    ReflTransGen (Move fun _ _ => True) (start oneOwner) (run tooLate (start oneOwner)) ∧
      Quiet (run tooLate (start oneOwner)) ∧ ¬ Follows (run tooLate (start oneOwner)) := by
  refine ⟨reaches_run ?_, ⟨rfl, rfl⟩, ?_⟩
  · exact ⟨trivial, trivial, List.mem_cons_self, trivial, trivial, trivial, ⟨rfl, nofun⟩, trivial,
      ⟨rfl, nofun⟩, trivial, rfl, trivial, ⟨rfl, nofun⟩, trivial, ⟨rfl, rfl⟩, trivial, trivial⟩
  · intro hfollows
    have hrecord := hfollows 0 rfl (by decide) ":1.7" rfl
    exact absurd hrecord (by decide)

end Deai.OwnerOrder
