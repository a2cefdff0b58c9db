import Deai.DesyncedOwners
import Deai.OwnerQueries

/-!
# The recorded owner and the order of the messages

A signal records the owner when it is filtered, a reply only when its handler runs. So the record
follows the order of the messages as long as the handler that runs last for a name still tells
the owner that the last message about the name has stated.
-/
namespace Deai.OwnerHistory
open DbusOwners hiding exec Move
open OwnerDirectories DesyncedOwners OwnerQueries Relation

variable {c c' : Connection} {s s' : State} {d : DirectoryId} {n wk : String}

/-- What `___owner_name` is when a name has the owner. -/
def recordOf (owner : String) : Option String := if owner = "" then none else some owner

theorem recordOf_inj {a b : String} (h : recordOf a = recordOf b) : a = b := by
  unfold recordOf at h
  split_ifs at h with ha hb hb
  · exact ha.trans hb.symm
  · exact Option.some.inj h

/-! ## Directories -/

theorem sameDirectories_forgetOwner (wk old : String) (c : Connection) :
    SameDirectories c (forgetOwner wk old c) := by
  obtain ⟨hdirs, hcache⟩ := forgetOwner_frame wk old c
  refine ⟨?_, fun e => by rw [hdirs], fun e => by rw [hdirs], fun n e he => by rwa [hcache] at he,
    fun n e he _ => by rwa [hcache]⟩
  unfold forgetOwner
  split_ifs
  · rfl
  · rcases getPeer_cases old c with ⟨q, hget, -, -⟩ | ⟨hget, -⟩
    · rw [hget]
      rfl
    · rw [hget]

/-- The name of the new owner is recorded for the directory of the name. -/
def Records (wk new : String) (c c' : Connection) : Prop :=
  ∀ e, (c'.directories e).ownerName =
    if isUnique wk = false ∧ c.cacheMember wk = some e ∧ Live c e then recordOf new
    else (c.directories e).ownerName

theorem ownerName_withOwner {q : PeerId} {new : String} (e : DirectoryId) :
    ((withOwner c d q wk new).directories e).ownerName =
      if e = d then some new else (c.directories e).ownerName := by
  unfold withOwner
  split_ifs with he
  · subst he
    simp
  · simp [Function.update_of_ne he]

theorem recordOwner_spec {new : String} (hrec : recordOwner d wk new c = .ok c') :
    SameDirectories c c' ∧ ∀ e, (c'.directories e).ownerName =
      if e = d then some new else (c.directories e).ownerName := by
  rcases recordOwner_cases d wk new c with ⟨q, -, -, heq⟩ | ⟨-, heq⟩
  · rw [heq] at hrec
    cases hrec
    exact ⟨sameDirectories_withOwner, ownerName_withOwner⟩
  · rw [heq] at hrec
    cases hrec
    have hmade : SameDirectories c {c with
        peers := Function.update c.peers c.peerCount fun _ => none
        peerCount := c.peerCount + 1
        peerMember := Function.update c.peerMember new (some c.peerCount)} :=
      ⟨rfl, fun _ => rfl, fun _ => rfl, fun _ _ he => he, fun _ _ he _ => he⟩
    exact ⟨hmade.trans sameDirectories_withOwner, ownerName_withOwner⟩

theorem nameChanged_spec {old new : String} (hcall : diDbusNameChanged wk old new c = .ok c') :
    SameDirectories c c' ∧ Records wk new c c' := by
  obtain ⟨hdirs, hcache⟩ := forgetOwner_frame wk old c
  have hforget := sameDirectories_forgetOwner wk old c
  rcases nameChanged_cases wk old new c with
    ⟨hunique, heq⟩ | ⟨-, hdead, heq⟩ | ⟨hunique, d, hmember, hd, heq⟩
  · rw [heq] at hcall
    cases hcall
    refine ⟨.rfl, fun e => ?_⟩
    rw [if_neg fun h => by rw [hunique] at h; cases h.1]
  · rw [heq] at hcall
    cases hcall
    refine ⟨hforget.trans (sameDirectories_clear fun e he hlive => ?_), fun e => ?_⟩
    · exact hdead e (hforget.entry wk e he) (hforget.live.mp hlive)
    · rw [if_neg fun h => hdead e h.2.1 h.2.2]
      simp only [hdirs]
  · have hif : ∀ e (x y : Option String), (if isUnique wk = false ∧ c.cacheMember wk = some e ∧
        Live c e then x else y) = if e = d then x else y := by
      intro e x y
      by_cases hed : e = d
      · subst hed
        rw [if_pos ⟨hunique, hmember, hd⟩, if_pos rfl]
      · rw [if_neg hed, if_neg]
        rintro ⟨-, he, -⟩
        rw [hmember] at he
        exact hed (Option.some.inj he).symm
    rw [heq] at hcall
    split_ifs at hcall with hnew
    · obtain ⟨hsame, hrecord⟩ := recordOwner_spec hcall
      refine ⟨hforget.trans hsame, fun e => ?_⟩
      rw [hrecord e, hif, hdirs, recordOf, if_neg hnew]
    · cases hcall
      refine ⟨hforget.trans sameDirectories_unown, fun e => ?_⟩
      rw [hif, recordOf, if_pos (not_not.mp hnew), ← hdirs]
      unfold unown Connection.setDirectory
      split_ifs with hed
      · subst hed
        simp
      · simp [Function.update_of_ne hed]

/-! ## Messages -/

/-- The owner that the last message about the name states. -/
def stated (history : List (String × String)) (n : String) : Option String :=
  (history.find? fun m => m.1 == n).map Prod.snd

/-- A message about the name has been filtered since the directory was made. -/
def Heard (s : State) (d : DirectoryId) : Prop :=
  ∃ m ∈ s.filtered.take (s.filtered.length - s.madeAt d), m.1 = (s.connection.directories d).busName

/-- The name that the handler of a promise is about. -/
def nameOf (s : State) (w : Pending) : String :=
  (s.connection.directories (s.objects w.object).objectCache).busName

/-- A reply with an owner of the name is among the promises. -/
def Waits (s : State) (queue : List Pending) (n : String) : Prop :=
  ∃ w ∈ queue, w.owner.isSome = true ∧ nameOf s w = n

/-- From the owners that the filtered messages have led to, the messages lead to those of the
bus. -/
def Coherent : (String → String) → List Message → (String → String) → Prop
  | seen, [], owners => seen = owners
  | seen, .nameOwnerChanged n old new :: rest, owners =>
      old = seen n ∧ Coherent (Function.update seen n new) rest owners
  | seen, .methodReturn r owner :: rest, owners =>
      owner = seen r.name ∧ Coherent seen rest owners
  | seen, .error r :: rest, owners => seen r.name = "" ∧ Coherent seen rest owners

/-- The request that a message answers. -/
def answered : Message → Option Request
  | .nameOwnerChanged _ _ _ => none
  | .methodReturn r _ => some r
  | .error r => some r

/-- The requests whose answer has not been filtered. -/
def unanswered (s : State) : List Request := s.inbox.filterMap answered ++ s.requests

theorem coherent_append {seen owners owners' : String → String} {l : List Message} {m : Message}
    (h : Coherent seen l owners) (hm : Coherent owners [m] owners') :
    Coherent seen (l ++ [m]) owners' := by
  induction l generalizing seen with
  | nil =>
      rw [show seen = owners from h]
      exact hm
  | cons a rest ih =>
      cases a with
      | nameOwnerChanged n old new => exact ⟨h.1, ih h.2⟩
      | methodReturn r owner => exact ⟨h.1, ih h.2⟩
      | error r => exact ⟨h.1, ih h.2⟩

theorem coherent_reply (owners : String → String) (r : Request) :
    Coherent owners [reply owners r] owners := by
  unfold reply
  split_ifs with howner
  · exact ⟨howner, rfl⟩
  · exact ⟨rfl, rfl⟩

theorem answered_reply (owners : String → String) (r : Request) :
    answered (reply owners r) = some r := by
  unfold reply
  split_ifs <;> rfl

/-- The record of every directory is what the messages have stated, unless a handler is still to
change it. -/
structure Tracks (s : State) (seen : String → String) : Prop where
  cached : Cached s.connection
  coherent : Coherent seen s.inbox s.owners
  history : ∀ n o, stated s.filtered n = some o → o = seen n
  made : ∀ d, s.madeAt d ≤ s.filtered.length
  nodup : ((unanswered s).map Request.serial).Nodup
  asked : ∀ r ∈ unanswered s, ∃ o, s.promiseFor r.serial = some o ∧
    (s.connection.directories (s.objects o).objectCache).busName = r.name
  promised : ∀ k o, s.promiseFor k = some o → k < s.serialCount ∧ (s.objects o).alive = true
  waiting : ∀ w ∈ s.pending, (s.objects w.object).alive = true ∧
    Heard s (s.objects w.object).objectCache
  living : ∀ o, (s.objects o).alive = true →
    o < s.objectCount ∧ Live s.connection (s.objects o).objectCache
  recorded : ∀ d, Live s.connection d → isUnique (s.connection.directories d).busName = false →
    ¬ Waits s s.pending (s.connection.directories d).busName →
      (Heard s d → (s.connection.directories d).ownerName =
        recordOf (seen (s.connection.directories d).busName)) ∧
      (¬ Heard s d → (s.connection.directories d).ownerName = none)

theorem tracks_start (owners : String → String) : Tracks (start owners) owners where
  cached := ⟨fun _ hd => Bool.noConfusion hd, fun _ hd => Bool.noConfusion hd, nofun⟩
  coherent := rfl
  history := nofun
  made _ := Nat.le_refl 0
  nodup := List.nodup_nil
  asked := nofun
  promised := nofun
  waiting := nofun
  living _ ho := Bool.noConfusion ho
  recorded _ hd := Bool.noConfusion hd

variable {seen : String → String} {o : ObjectId}

/-! ## The bus -/

theorem Tracks.ownerChanges (h : Tracks s seen) (n new : String) :
    Tracks {s with
      owners := Function.update s.owners n new
      inbox := s.inbox ++ [.nameOwnerChanged n (s.owners n) new]} seen := by
  have hsame : unanswered {s with
      owners := Function.update s.owners n new
      inbox := s.inbox ++ [.nameOwnerChanged n (s.owners n) new]} = unanswered s := by
    simp [unanswered, answered]
  refine {h with coherent := coherent_append h.coherent ⟨rfl, rfl⟩, nodup := ?_, asked := ?_}
  · rw [hsame]
    exact h.nodup
  · rw [hsame]
    exact h.asked

theorem Tracks.answers (h : Tracks s seen) {r : Request} (hr : r ∈ s.requests) :
    Tracks {s with
      requests := s.requests.erase r
      inbox := s.inbox ++ [reply s.owners r]} seen := by
  have hperm : (unanswered {s with
      requests := s.requests.erase r
      inbox := s.inbox ++ [reply s.owners r]}).Perm (unanswered s) := by
    simp only [unanswered, List.filterMap_append, List.filterMap_cons, answered_reply,
      List.filterMap_nil, List.append_assoc, List.singleton_append]
    exact (List.perm_cons_erase hr).symm.append_left _
  refine {h with
    coherent := coherent_append h.coherent (coherent_reply s.owners r), nodup := ?_, asked := ?_}
  · exact ((hperm.map Request.serial).nodup_iff).mpr h.nodup
  · exact fun q hq => h.asked q (hperm.subset hq)

/-! ## Objects that go -/

theorem heard_congr (hfiltered : s'.filtered = s.filtered) (hmade : s'.madeAt d = s.madeAt d)
    (hname : (s'.connection.directories d).busName = (s.connection.directories d).busName) :
    Heard s' d ↔ Heard s d := by
  unfold Heard
  rw [hfiltered, hmade, hname]

theorem waits_congr {queue : List Pending} (hname : ∀ w ∈ queue, nameOf s' w = nameOf s w) :
    Waits s' queue n ↔ Waits s queue n := by
  constructor
  · rintro ⟨w, hw, hsome, heq⟩
    exact ⟨w, hw, hsome, (hname w hw).symm.trans heq⟩
  · rintro ⟨w, hw, hsome, heq⟩
    exact ⟨w, hw, hsome, (hname w hw).trans heq⟩

theorem Tracks.kill (h : Tracks s seen) (hheld : ¬ held o s) :
    Tracks {s with objects := Function.update s.objects o {s.objects o with alive := false}}
      seen := by
  have hcache : ∀ x, (Function.update s.objects o {s.objects o with alive := false} x).objectCache =
      (s.objects x).objectCache := by
    intro x
    by_cases hx : x = o
    · subst hx
      simp
    · rw [Function.update_of_ne hx]
  have halive : ∀ x, (Function.update s.objects o {s.objects o with alive := false} x).alive = true ↔
      x ≠ o ∧ (s.objects x).alive = true := by
    intro x
    by_cases hx : x = o
    · subst hx
      simp
    · simp [hx]
  refine {h with asked := ?_, promised := ?_, waiting := ?_, living := ?_, recorded := ?_}
  · intro r hr
    obtain ⟨x, hx, hname⟩ := h.asked r hr
    exact ⟨x, hx, by rw [hcache]; exact hname⟩
  · intro k x hx
    obtain ⟨hlt, hlive⟩ := h.promised k x hx
    refine ⟨hlt, (halive x).mpr ⟨?_, hlive⟩⟩
    rintro rfl
    exact hheld (.inl ⟨k, hx⟩)
  · intro w hw
    obtain ⟨hlive, hheard⟩ := h.waiting w hw
    refine ⟨(halive w.object).mpr ⟨?_, hlive⟩, by rw [hcache]; exact hheard⟩
    intro heq
    exact hheld (.inr ⟨w, hw, heq⟩)
  · intro x hx
    rw [hcache]
    exact h.living x ((halive x).mp hx).2
  · intro d hd hunique hwaits
    refine h.recorded d hd hunique fun hcase => hwaits ?_
    refine (waits_congr fun w _ => ?_).mpr hcase
    simp only [nameOf, hcache]

theorem Tracks.drop (h : Tracks s seen) (hkept : kept d s = false) :
    Tracks {s with connection := dropDirectory d s.connection} seen := by
  have hheard : ∀ e, Heard {s with connection := dropDirectory d s.connection} e ↔ Heard s e :=
    fun e => heard_congr rfl rfl (busName_dropDirectory e)
  refine {h with
    cached := cached_drop h.cached d, asked := ?_, waiting := ?_, living := ?_, recorded := ?_}
  · intro r hr
    obtain ⟨x, hx, hname⟩ := h.asked r hr
    exact ⟨x, hx, by rw [busName_dropDirectory]; exact hname⟩
  · exact fun w hw => ⟨(h.waiting w hw).1, (hheard _).mpr (h.waiting w hw).2⟩
  · intro x hx
    obtain ⟨hlt, hlive⟩ := h.living x hx
    refine ⟨hlt, live_dropDirectory.mpr ⟨?_, hlive⟩⟩
    intro heq
    have hmem : kept d s = true := by
      simp only [kept, List.any_eq_true, List.mem_range, Bool.and_eq_true, beq_iff_eq]
      exact ⟨x, hlt, hx, heq⟩
    rw [hkept] at hmem
    cases hmem
  · intro e he hunique hwaits
    obtain ⟨hne, hlive⟩ := live_dropDirectory.mp he
    rw [directories_dropDirectory hne] at hunique hwaits ⊢
    rw [hheard]
    refine h.recorded e hlive hunique fun hcase => hwaits ?_
    refine (waits_congr fun w _ => ?_).mpr hcase
    exact busName_dropDirectory _

theorem Tracks.release (h : Tracks s seen) (hheld : ¬ held o s) :
    Tracks (releaseObject o s) seen := by
  simp only [releaseObject]
  split_ifs with hkept
  · exact h.kill hheld
  · exact (h.kill hheld).drop (Bool.eq_false_of_not_eq_true hkept)

/-! ## Objects that are made -/

/-- The directory of an object that is alive. -/
theorem Tracks.objectCache_lt (h : Tracks s seen) (ho : (s.objects o).alive = true) :
    (s.objects o).objectCache < s.connection.directoryCount :=
  h.cached.bound _ (h.living o ho).2

/-- A directory is made for the name. -/
def withDirectory (s : State) (bus : String) : State :=
  {s with
    connection := {s.connection with
      directories := Function.update s.connection.directories s.connection.directoryCount
        {busName := bus}
      directoryCount := s.connection.directoryCount + 1
      cacheMember := Function.update s.connection.cacheMember bus
        (some s.connection.directoryCount)}
    madeAt := Function.update s.madeAt s.connection.directoryCount s.filtered.length}

theorem directories_withDirectory {bus : String} (hd : d ≠ s.connection.directoryCount) :
    (withDirectory s bus).connection.directories d = s.connection.directories d :=
  Function.update_of_ne hd ..

theorem newest_withDirectory {bus : String} :
    (withDirectory s bus).connection.directories s.connection.directoryCount = {busName := bus} :=
  Function.update_self ..

theorem heard_withDirectory {bus : String} :
    Heard (withDirectory s bus) d ↔ d ≠ s.connection.directoryCount ∧ Heard s d := by
  by_cases hd : d = s.connection.directoryCount
  · subst hd
    simp [Heard, withDirectory]
  · have hcongr : Heard (withDirectory s bus) d ↔ Heard s d :=
      heard_congr rfl (Function.update_of_ne hd ..) (by rw [directories_withDirectory hd])
    exact hcongr.trans (and_iff_right hd).symm

theorem live_withDirectory {bus : String} (hd : d ≠ s.connection.directoryCount) :
    Live (withDirectory s bus).connection d ↔ Live s.connection d := by
  rw [Live, directories_withDirectory hd, Live]

theorem Tracks.addDirectory (h : Tracks s seen) {bus : String}
    (hdead : ∀ d, s.connection.cacheMember bus = some d → ¬ Live s.connection d) :
    Tracks (withDirectory s bus) seen := by
  have hne : ∀ x, (s.objects x).alive = true →
      (s.objects x).objectCache ≠ s.connection.directoryCount := fun x hx =>
    Nat.ne_of_lt (h.objectCache_lt hx)
  have hname : ∀ w ∈ s.pending, nameOf (withDirectory s bus) w = nameOf s w := by
    intro w hw
    exact congrArg Directory.busName (directories_withDirectory (hne _ (h.waiting w hw).1))
  refine ⟨cached_add h.cached hdead, h.coherent, h.history, ?_, h.nodup, ?_, h.promised, ?_, ?_, ?_⟩
  · intro d
    by_cases hd : d = s.connection.directoryCount
    · subst hd
      simp [withDirectory]
    · simp only [withDirectory, Function.update_of_ne hd]
      exact h.made d
  · intro r hr
    obtain ⟨x, hx, hbus⟩ := h.asked r hr
    refine ⟨x, hx, ?_⟩
    rw [← hbus]
    exact congrArg Directory.busName (directories_withDirectory (hne x (h.promised _ x hx).2))
  · intro w hw
    obtain ⟨hlive, hheard⟩ := h.waiting w hw
    exact ⟨hlive, heard_withDirectory.mpr ⟨hne _ hlive, hheard⟩⟩
  · intro x hx
    obtain ⟨hlt, hlive⟩ := h.living x hx
    exact ⟨hlt, (live_withDirectory (hne x hx)).mpr hlive⟩
  · intro d hd hunique hwaits
    by_cases hnew : d = s.connection.directoryCount
    · subst hnew
      refine ⟨fun hheard => absurd rfl (heard_withDirectory.mp hheard).1, fun _ => ?_⟩
      rw [newest_withDirectory]
    · rw [directories_withDirectory hnew] at hunique hwaits ⊢
      rw [heard_withDirectory, and_iff_right hnew]
      refine h.recorded d ((live_withDirectory hnew).mp hd) hunique fun hcase => hwaits ?_
      exact (waits_congr hname).mpr hcase

theorem Tracks.directoryFor (h : Tracks s seen) (bus : String) :
    Tracks (OwnerQueries.directoryFor bus s).2 seen ∧
      Live (OwnerQueries.directoryFor bus s).2.connection (OwnerQueries.directoryFor bus s).1 ∧
      ((OwnerQueries.directoryFor bus s).2.connection.directories
        (OwnerQueries.directoryFor bus s).1).busName = bus := by
  unfold OwnerQueries.directoryFor
  rcases objectCache_cases bus s.connection with ⟨d, hcache, hmember, hlive⟩ | ⟨hcache, hdead⟩
  · rw [hcache]
    simp only
    rw [if_neg (Nat.ne_of_lt (h.cached.bound d hlive))]
    exact ⟨h, hlive, (h.cached.cacheEntry bus d hmember).2⟩
  · rw [hcache]
    simp only [if_true]
    refine ⟨h.addDirectory hdead, ?_, ?_⟩
    · simp [Live]
    · simp

theorem Tracks.members (h : Tracks s seen) (members : DirectoryId → String → Option ObjectId) :
    Tracks {s with objectMember := members} seen :=
  ⟨h.cached, h.coherent, h.history, h.made, h.nodup, h.asked, h.promised, h.waiting, h.living,
    h.recorded⟩

theorem getObject_cases (d : DirectoryId) (key : String) (s : State) :
    ∃ members, (getObject d key s).2 = {s with objectMember := members} := by
  unfold getObject
  split
  · exact ⟨s.objectMember, rfl⟩
  · split_ifs
    · exact ⟨s.objectMember, rfl⟩
    · exact ⟨_, rfl⟩

theorem Tracks.newObject (h : Tracks s seen) (hd : Live s.connection d) (key : String) :
    Tracks (OwnerQueries.newObject d key s).2 seen := by
  have hother : ∀ x, (s.objects x).alive = true →
      Function.update s.objects s.objectCount {objectCache := d} x = s.objects x := by
    intro x hx
    exact Function.update_of_ne (Nat.ne_of_lt (h.living x hx).1) ..
  refine ⟨h.cached, h.coherent, h.history, h.made, h.nodup, ?_, ?_, ?_, ?_, ?_⟩
  · intro r hr
    obtain ⟨x, hx, hbus⟩ := h.asked r hr
    refine ⟨x, hx, ?_⟩
    simp only [OwnerQueries.newObject, hother x (h.promised _ x hx).2]
    exact hbus
  · intro k x hx
    obtain ⟨hlt, hlive⟩ := h.promised k x hx
    refine ⟨hlt, ?_⟩
    simp only [OwnerQueries.newObject, hother x hlive]
    exact hlive
  · intro w hw
    obtain ⟨hlive, hheard⟩ := h.waiting w hw
    simp only [OwnerQueries.newObject, hother w.object hlive]
    exact ⟨hlive, hheard⟩
  · intro x hx
    by_cases hnew : x = s.objectCount
    · subst hnew
      refine ⟨Nat.lt_succ_self _, ?_⟩
      simp only [OwnerQueries.newObject, Function.update_self]
      exact hd
    · simp only [OwnerQueries.newObject, Function.update_of_ne hnew] at hx ⊢
      obtain ⟨hlt, hlive⟩ := h.living x hx
      exact ⟨Nat.lt_succ_of_lt hlt, hlive⟩
  · intro e he hunique hwaits
    refine h.recorded e he hunique fun hcase => hwaits ?_
    refine (waits_congr fun w hw => ?_).mpr hcase
    simp only [nameOf, OwnerQueries.newObject, hother w.object (h.waiting w hw).1]

theorem Tracks.askOwner (h : Tracks s seen) {bus : String} (ho : (s.objects o).alive = true)
    (hbus : (s.connection.directories (s.objects o).objectCache).busName = bus) :
    Tracks (OwnerQueries.askOwner bus o s) seen := by
  have hserial : ∀ r ∈ unanswered s, r.serial ≠ s.serialCount := by
    intro r hr
    obtain ⟨x, hx, -⟩ := h.asked r hr
    exact Nat.ne_of_lt (h.promised _ x hx).1
  have hopen : unanswered (OwnerQueries.askOwner bus o s) =
      unanswered s ++ [⟨s.serialCount, bus⟩] := by
    simp [unanswered, OwnerQueries.askOwner]
  refine ⟨h.cached, h.coherent, h.history, h.made, ?_, ?_, ?_, h.waiting, h.living, h.recorded⟩
  · rw [hopen, List.map_append, List.nodup_append]
    refine ⟨h.nodup, by simp, ?_⟩
    intro k hk m hm
    obtain ⟨r, hr, rfl⟩ := List.mem_map.mp hk
    rw [List.map_singleton, List.mem_singleton] at hm
    rw [hm]
    exact hserial r hr
  · intro r hr
    rw [hopen, List.mem_append, List.mem_singleton] at hr
    rcases hr with hr | rfl
    · obtain ⟨x, hx, hname⟩ := h.asked r hr
      exact ⟨x, by simpa only [OwnerQueries.askOwner, Function.update_of_ne (hserial r hr)] using hx,
        hname⟩
    · exact ⟨o, Function.update_self .., hbus⟩
  · intro k x hx
    by_cases hk : k = s.serialCount
    · subst hk
      simp only [OwnerQueries.askOwner, Function.update_self, Option.some.injEq] at hx
      subst hx
      exact ⟨Nat.lt_succ_self _, ho⟩
    · simp only [OwnerQueries.askOwner, Function.update_of_ne hk] at hx
      obtain ⟨hlt, hlive⟩ := h.promised k x hx
      exact ⟨Nat.lt_succ_of_lt hlt, hlive⟩

/-- No handler refers to an object that is not made yet. -/
theorem Tracks.not_held (h : Tracks s seen) : ¬ held s.objectCount s := by
  rintro (⟨k, hk⟩ | ⟨w, hw, heq⟩)
  · exact Nat.lt_irrefl _ (h.living _ (h.promised k _ hk).2).1
  · have hlt := (h.living _ (h.waiting w hw).1).1
    rw [heq] at hlt
    exact Nat.lt_irrefl _ hlt

theorem Tracks.get (h : Tracks s seen) (bus key : String) (sent : Bool) :
    Tracks (diDbusGetObject bus key sent s) seen := by
  unfold diDbusGetObject
  obtain ⟨hdir, hlive, hbus⟩ := h.directoryFor bus
  generalize OwnerQueries.directoryFor bus s = made at hdir hlive hbus ⊢
  obtain ⟨d, s₁⟩ := made
  simp only at hdir hlive hbus ⊢
  obtain ⟨members, hmembers⟩ := getObject_cases d key s₁
  generalize getObject d key s₁ = found at hmembers ⊢
  obtain ⟨known, s₂⟩ := found
  simp only at hmembers
  have hget : Tracks s₂ seen := by
    rw [hmembers]
    exact hdir.members members
  have hlive₂ : Live s₂.connection d := by
    rw [hmembers]
    exact hlive
  have hbus₂ : (s₂.connection.directories d).busName = bus := by
    rw [hmembers]
    exact hbus
  cases known with
  | some o => exact hget
  | none =>
      have hnew := hget.newObject hlive₂ key
      have hself : (OwnerQueries.newObject d key s₂).2.objects (OwnerQueries.newObject d key s₂).1 =
          {objectCache := d} := Function.update_self ..
      simp only [recordedOwnerName_eq]
      cases sent with
      | true =>
          refine hnew.askOwner (by rw [hself]) ?_
          rw [hself]
          exact hbus₂
      | false => exact hnew.release hget.not_held

/-! ## Messages that are filtered -/

theorem stated_cons (m : String × String) (history : List (String × String)) (n : String) :
    stated (m :: history) n = if m.1 = n then some m.2 else stated history n := by
  unfold stated
  by_cases hm : m.1 = n
  · simp [hm]
  · simp [hm]

/-- A directory has heard a message if it is about its name. -/
theorem heard_cons {m : String × String} (hmade : s.madeAt d ≤ s.filtered.length)
    (hfiltered : s'.filtered = m :: s.filtered) (hat : s'.madeAt d = s.madeAt d)
    (hname : (s'.connection.directories d).busName = (s.connection.directories d).busName) :
    Heard s' d ↔ m.1 = (s.connection.directories d).busName ∨ Heard s d := by
  unfold Heard
  rw [hfiltered, hat, hname, List.length_cons, Nat.succ_sub hmade, List.take_succ_cons]
  simp

theorem Tracks.signal (h : Tracks s seen) {old new : String} {rest : List Message}
    (hinbox : s.inbox = .nameOwnerChanged n old new :: rest)
    (hcall : diDbusNameChanged n old new s.connection = .ok c') :
    Tracks {s with inbox := rest, filtered := (n, new) :: s.filtered, connection := c'}
      (Function.update seen n new) := by
  obtain ⟨hsame, hrecords⟩ := nameChanged_spec hcall
  have hcoherent := h.coherent
  rw [hinbox] at hcoherent
  have hopen : unanswered s = rest.filterMap answered ++ s.requests := by
    rw [unanswered, hinbox, List.filterMap_cons_none rfl]
  have hheard : ∀ e, Heard {s with
      inbox := rest, filtered := (n, new) :: s.filtered, connection := c'} e ↔
        n = (s.connection.directories e).busName ∨ Heard s e := by
    intro e
    refine heard_cons (h.made e) (m := (n, new)) ?_ ?_ ?_
    · rfl
    · rfl
    · exact hsame.busName e
  refine ⟨h.cached.same hsame, hcoherent.2, ?_, ?_, ?_, ?_, h.promised, ?_, ?_, ?_⟩
  · intro m o ho
    rw [stated_cons] at ho
    split_ifs at ho with hm
    · cases ho
      rw [← hm, Function.update_self]
    · rw [Function.update_of_ne (Ne.symm hm)]
      exact h.history m o ho
  · exact fun e => Nat.le_succ_of_le (h.made e)
  · have hnodup := h.nodup
    rw [hopen] at hnodup
    exact hnodup
  · intro r hr
    obtain ⟨x, hx, hbus⟩ := h.asked r (by rw [hopen]; exact hr)
    exact ⟨x, hx, (hsame.busName _).trans hbus⟩
  · intro w hw
    obtain ⟨hlive, hw⟩ := h.waiting w hw
    exact ⟨hlive, (hheard _).mpr (.inr hw)⟩
  · intro x hx
    obtain ⟨hlt, hlive⟩ := h.living x hx
    exact ⟨hlt, hsame.live.mpr hlive⟩
  · intro e he hunique hwaits
    simp only [hsame.busName] at hunique hwaits ⊢
    have hlive := hsame.live.mp he
    rw [hheard, hrecords e]
    by_cases hn : n = (s.connection.directories e).busName
    · have hmember := h.cached.cache e hlive
      rw [← hn] at hmember hunique ⊢
      rw [if_pos ⟨hunique, hmember, hlive⟩, Function.update_self]
      exact ⟨fun _ => rfl, fun hnot => absurd (.inl rfl) hnot⟩
    · rw [if_neg fun hcase => hn (h.cached.cacheEntry n e hcase.2.1).2.symm,
        Function.update_of_ne (Ne.symm hn), or_iff_right hn]
      refine h.recorded e hlive hunique fun hcase => hwaits ?_
      refine (waits_congr fun w _ => ?_).mpr hcase
      exact hsame.busName _

theorem Tracks.connection (h : Tracks s seen) (hsame : SameDirectories s.connection c')
    (hdirs : c'.directories = s.connection.directories) :
    Tracks {s with connection := c'} seen := by
  have hheard : ∀ e, Heard {s with connection := c'} e ↔ Heard s e := fun e =>
    heard_congr rfl rfl (hsame.busName e)
  refine ⟨h.cached.same hsame, h.coherent, h.history, h.made, h.nodup, ?_, h.promised, ?_, ?_, ?_⟩
  · intro r hr
    obtain ⟨x, hx, hbus⟩ := h.asked r hr
    exact ⟨x, hx, (hsame.busName _).trans hbus⟩
  · intro w hw
    obtain ⟨hlive, hw⟩ := h.waiting w hw
    exact ⟨hlive, (hheard _).mpr hw⟩
  · intro x hx
    obtain ⟨hlt, hlive⟩ := h.living x hx
    exact ⟨hlt, hsame.live.mpr hlive⟩
  · intro e he hunique hwaits
    simp only [hdirs] at hunique hwaits ⊢
    rw [hheard]
    refine h.recorded e (hsame.live.mp he) hunique fun hcase => hwaits ?_
    refine (waits_congr fun w _ => ?_).mpr hcase
    exact hsame.busName _

theorem Tracks.emitSignal (h : Tracks s seen) : Tracks (OwnerQueries.emitSignal s) seen := by
  unfold OwnerQueries.emitSignal
  rcases getDirectory_cases "org.freedesktop.DBus" s.connection with
    ⟨d, hget, -, -⟩ | ⟨hget, hdead⟩
  · rw [hget]
    obtain ⟨members, hmembers⟩ :=
      getObject_cases d "/org/freedesktop/DBus@org.freedesktop.DBus" s
    have htracks := h.members members
    rw [← hmembers] at htracks
    exact htracks
  · rw [hget]
    exact h.connection (sameDirectories_clear hdead) rfl

theorem Tracks.settle (h : Tracks s seen) {m : Message} {rest : List Message} {r : Request}
    {owner : Option String} (hinbox : s.inbox = m :: rest) (hm : answered m = some r)
    (hstates : m.states = (r.name, seen r.name)) (hcoherent : Coherent seen rest s.owners)
    (howner : owner = none → seen r.name = "") :
    Tracks (OwnerQueries.settle r.serial owner
      {s with inbox := rest, filtered := m.states :: s.filtered}) seen := by
  have hopen : unanswered s = r :: (rest.filterMap answered ++ s.requests) := by
    simp [unanswered, hinbox, hm]
  have hnodup := h.nodup
  rw [hopen, List.map_cons, List.nodup_cons] at hnodup
  obtain ⟨x, hx, hbus⟩ := h.asked r (by rw [hopen]; exact List.mem_cons_self)
  simp only [OwnerQueries.settle, hx, hstates]
  generalize hs' : ({s with
    inbox := rest
    filtered := (r.name, seen r.name) :: s.filtered
    promiseFor := Function.update s.promiseFor r.serial none
    pending := ⟨x, owner⟩ :: s.pending} : State) = s'
  have hheard : ∀ e, Heard s' e ↔ r.name = (s.connection.directories e).busName ∨ Heard s e := by
    intro e
    refine heard_cons (h.made e) (m := (r.name, seen r.name)) ?_ ?_ ?_
    all_goals rw [← hs']
  subst hs'
  refine ⟨h.cached, hcoherent, ?_, ?_, hnodup.2, ?_, ?_, ?_, h.living, ?_⟩
  · intro k o ho
    rw [stated_cons] at ho
    split_ifs at ho with hk
    · cases ho
      rw [← hk]
    · exact h.history k o ho
  · exact fun e => Nat.le_succ_of_le (h.made e)
  · intro q hq
    have hne : q.serial ≠ r.serial := fun heq =>
      hnodup.1 (heq ▸ List.mem_map_of_mem hq)
    obtain ⟨y, hy, hname⟩ := h.asked q (by rw [hopen]; exact List.mem_cons_of_mem r hq)
    exact ⟨y, by simpa only [Function.update_of_ne hne] using hy, hname⟩
  · intro k y hy
    by_cases hk : k = r.serial
    · subst hk
      simp at hy
    · simp only [Function.update_of_ne hk] at hy
      exact h.promised k y hy
  · intro w hw
    rcases List.mem_cons.mp hw with rfl | hw
    · exact ⟨(h.promised _ x hx).2, (hheard _).mpr (.inl hbus.symm)⟩
    · obtain ⟨hlive, hw⟩ := h.waiting w hw
      exact ⟨hlive, (hheard _).mpr (.inr hw)⟩
  · intro e he hunique hwaits
    have hold : ¬ Waits s s.pending (s.connection.directories e).busName := by
      rintro ⟨w, hw, hsome, heq⟩
      exact hwaits ⟨w, List.mem_cons_of_mem _ hw, hsome, heq⟩
    obtain ⟨hyes, hno⟩ := h.recorded e he hunique hold
    rw [hheard]
    by_cases hn : r.name = (s.connection.directories e).busName
    · -- the reply has no owner, or it waits
      have hnone : owner = none := by
        cases owner with
        | none => rfl
        | some owner =>
            exact absurd ⟨_, List.mem_cons_self, rfl, hbus.trans hn⟩ hwaits
      refine ⟨fun _ => ?_, fun hnot => absurd (.inl hn) hnot⟩
      by_cases hcase : Heard s e
      · exact hyes hcase
      · rw [← hn, howner hnone]
        exact hno hcase
    · rw [or_iff_right hn]
      exact ⟨hyes, hno⟩

/-! ## Handlers -/

theorem Tracks.rejected (h : Tracks s seen) {w : Pending} {rest : List Pending}
    (hpending : s.pending = w :: rest) (hw : w.owner = none) :
    Tracks {s with pending := rest} seen := by
  refine {h with waiting := ?_, recorded := ?_}
  · exact fun v hv => h.waiting v (by rw [hpending]; exact List.mem_cons_of_mem w hv)
  · intro e he hunique hwaits
    refine h.recorded e he hunique ?_
    rintro ⟨v, hv, hsome, heq⟩
    rw [hpending] at hv
    rcases List.mem_cons.mp hv with rfl | hv
    · rw [hw] at hsome
      cases hsome
    · exact hwaits ⟨v, hv, hsome, heq⟩

theorem setOwner_spec {w : Pending} {rest : List Pending} {owner : String}
    (hcall : diDbusObjectSetOwner w.object owner {s with pending := rest} = .ok s') :
    ∃ c', s' = {s with pending := rest, connection := c'} ∧ SameDirectories s.connection c' ∧
      Records (nameOf s w) owner s.connection c' := by
  simp only [diDbusObjectSetOwner] at hcall
  split at hcall
  next c' hchanged =>
    cases hcall
    obtain ⟨hsame, hrecords⟩ := nameChanged_spec hchanged
    exact ⟨c', rfl, hsame, hrecords⟩
  next => cases hcall

/-- A handler has the last word on a name if no other reply with an owner waits. -/
theorem Tracks.resolved (h : Tracks s seen) {w : Pending} {rest : List Pending} {owner : String}
    (hpending : s.pending = w :: rest)
    (htimely : ¬ Waits s rest (nameOf s w) → isUnique (nameOf s w) = false →
      stated s.filtered (nameOf s w) = some owner)
    (hcall : diDbusObjectSetOwner w.object owner {s with pending := rest} = .ok s') :
    Tracks s' seen := by
  obtain ⟨c', rfl, hsame, hrecords⟩ := setOwner_spec hcall
  have hmem : ∀ v ∈ rest, v ∈ s.pending := by
    intro v hv
    rw [hpending]
    exact List.mem_cons_of_mem w hv
  have hheard : ∀ e, Heard {s with pending := rest, connection := c'} e ↔ Heard s e := fun e =>
    heard_congr rfl rfl (hsame.busName e)
  refine ⟨h.cached.same hsame, h.coherent, h.history, h.made, h.nodup, ?_, h.promised, ?_, ?_, ?_⟩
  · intro r hr
    obtain ⟨x, hx, hbus⟩ := h.asked r hr
    exact ⟨x, hx, (hsame.busName _).trans hbus⟩
  · intro v hv
    obtain ⟨hlive, hv⟩ := h.waiting v (hmem v hv)
    exact ⟨hlive, (hheard _).mpr hv⟩
  · intro x hx
    obtain ⟨hlt, hlive⟩ := h.living x hx
    exact ⟨hlt, hsame.live.mpr hlive⟩
  · intro e he hunique hwaits
    simp only [hsame.busName] at hunique hwaits ⊢
    have hlive := hsame.live.mp he
    have hrest : ¬ Waits s rest (s.connection.directories e).busName := by
      intro hcase
      refine hwaits ((waits_congr fun v _ => ?_).mpr hcase)
      exact hsame.busName _
    rw [hheard, hrecords e]
    by_cases hn : nameOf s w = (s.connection.directories e).busName
    · obtain ⟨hw, hwheard⟩ := h.waiting w (by rw [hpending]; exact List.mem_cons_self)
      have hdir := h.cached.eq_of_busName (h.living _ hw).2 hlive hn
      rw [hdir] at hwheard
      have hmember := h.cached.cache e hlive
      rw [hn] at htimely ⊢
      have howner := h.history _ _ (htimely hrest hunique)
      rw [if_pos ⟨hunique, hmember, hlive⟩, howner]
      exact ⟨fun _ => rfl, fun hnot => absurd hwheard hnot⟩
    · rw [if_neg fun hcase => hn (h.cached.cacheEntry _ e hcase.2.1).2.symm]
      refine h.recorded e hlive hunique ?_
      rintro ⟨v, hv, hsome, heq⟩
      rw [hpending] at hv
      rcases List.mem_cons.mp hv with rfl | hv
      · exact hn heq
      · exact hrest ⟨v, hv, hsome, heq⟩

end Deai.OwnerHistory
