import Deai.OwnerDirectories

/-!
# Signals that disagree with the recorded owners

After a call of `di_dbus_name_changed` a directory is listed by its owner only, as long as the
signals of the bus agree with what is recorded, or the peer that was recorded goes with the
directory. The test for a difference never finds one: it reads the owner, an object, as a string.
-/
namespace Deai.DesyncedOwners
open DbusOwners OwnerDirectories Relation

variable {c c' : Connection} {d : DirectoryId} {p q : PeerId} {wk : String}

/-! ## Calls -/

theorem recordedOwnerName_eq (y : Directory) : recordedOwnerName y = none := by
  unfold recordedOwnerName
  cases y.owner <;> rfl

/-- The signal agrees with what is recorded, or is about the first owner and the peer that was
recorded goes, or stays the owner. -/
def Agrees (c : Connection) (d : DirectoryId) (old new : String) : Prop :=
  ∀ r ∈ (c.directories d).ownerName, ∀ p ∈ (c.directories d).owner,
    old = r ∨ old = "" ∧ (new = r ∨ Alone c d p)

def Synced (c : Connection) : Call → Prop
  | .nameChanged wk old new => isUnique wk = true ∨
      ∀ d ∈ c.cacheMember wk, Live c d → Agrees c d old new
  | .get _ | .dies _ => True

theorem nameChanged_cases (wk old new : String) (c : Connection) :
    (isUnique wk = true ∧ diDbusNameChanged wk old new c = .ok c) ∨
    (isUnique wk = false ∧ (∀ d, c.cacheMember wk = some d → ¬ Live c d) ∧
      diDbusNameChanged wk old new c = .ok {forgetOwner wk old c with
        cacheMember := Function.update (forgetOwner wk old c).cacheMember wk none}) ∨
    (isUnique wk = false ∧ ∃ d, c.cacheMember wk = some d ∧ Live c d ∧
      diDbusNameChanged wk old new c =
        if new ≠ "" then recordOwner d wk new (forgetOwner wk old c)
        else .ok (unown d (forgetOwner wk old c))) := by
  obtain ⟨hdirs, hcache⟩ := forgetOwner_frame wk old c
  unfold diDbusNameChanged
  by_cases hunique : isUnique wk = true
  · rw [if_pos hunique]
    exact .inl ⟨hunique, rfl⟩
  rw [if_neg hunique]
  rw [Bool.not_eq_true] at hunique
  right
  rcases getDirectory_cases wk (forgetOwner wk old c) with
    ⟨d, hget, hmember, hlive⟩ | ⟨hget, hdead⟩
  · rw [hcache] at hmember
    rw [Live, hdirs] at hlive
    refine .inr ⟨hunique, d, hmember, hlive, ?_⟩
    rw [hget]
    simp only [recordedOwnerName_eq]
  · refine .inl ⟨hunique, ?_, by rw [hget]⟩
    intro d hd hlive
    rw [← hcache] at hd
    rw [Live, ← hdirs] at hlive
    exact hdead d hd hlive

theorem nameChanged_ok (wk old new : String) (c : Connection) :
    ∃ c', diDbusNameChanged wk old new c = .ok c' := by
  rcases nameChanged_cases wk old new c with ⟨-, heq⟩ | ⟨-, -, heq⟩ | ⟨-, d, -, -, heq⟩
  · exact ⟨_, heq⟩
  · exact ⟨_, heq⟩
  · rw [heq]
    split_ifs
    · rcases recordOwner_cases d wk new (forgetOwner wk old c) with ⟨q, -, -, hrec⟩ | ⟨-, hrec⟩
      all_goals exact ⟨_, hrec⟩
    · exact ⟨_, rfl⟩

theorem consistent_nameChanged (h : Consistent c) {wk old new : String}
    (hsynced : Synced c (.nameChanged wk old new))
    (hcall : diDbusNameChanged wk old new c = .ok c') : Consistent c' := by
  obtain ⟨hdirs, hcache⟩ := forgetOwner_frame wk old c
  obtain ⟨hbase, hlists, hforgot⟩ := forgetOwner_spec h wk old
  rcases nameChanged_cases wk old new c with
    ⟨-, heq⟩ | ⟨-, hdead, heq⟩ | ⟨hunique, d, hmember, hd, heq⟩
  · rw [heq] at hcall
    cases hcall
    exact h
  · rw [heq] at hcall
    cases hcall
    have hnone : ∀ e, (forgetOwner wk old c).cacheMember wk = some e →
        ¬ Live (forgetOwner wk old c) e := by
      intro e he hlive
      rw [hcache] at he
      rw [Live, hdirs] at hlive
      exact hdead e he hlive
    refine ⟨hbase.clearCache hnone, ?_⟩
    intro e he p hp _
    refine hlists e he p hp fun hwk => ?_
    have hmember := hbase.cache e he
    rw [← Option.some.inj hwk] at hmember
    exact hnone e hmember he
  · have hagrees : Agrees c d old new := by
      rcases hsynced with hcase | hcase
      · rw [hunique] at hcase
        cases hcase
      · exact hcase d hmember hd
    have hlive : Live (forgetOwner wk old c) d := by rwa [Live, hdirs]
    have hwk : ((forgetOwner wk old c).directories d).busName = wk := by
      rw [hdirs]
      exact (h.base.cacheEntry wk d hmember).2
    -- the owner that is recorded does not list the directory any more, or goes, or is the new one
    have hready : ∀ p, ((forgetOwner wk old c).directories d).owner = some p →
        new ≠ "" ∧ (forgetOwner wk old c).peerMember new = some p ∨
          (forgetOwner wk old c).peers p wk = none ∨ Alone (forgetOwner wk old c) d p := by
      intro p hp
      obtain ⟨-, r, hr⟩ := hbase.owned d hlive p hp
      obtain ⟨hne, p', hp', hregistered⟩ := hbase.named d hlive r hr
      rw [hp, Option.some.injEq] at hp'
      subst hp'
      rw [hdirs] at hp hr
      rcases hagrees r hr p hp with rfl | ⟨rfl, hrest⟩
      · exact .inr (.inl (hforgot d hd hr p hp))
      · rcases hrest with rfl | halone
        · exact .inl ⟨hne, hregistered⟩
        · refine .inr (.inr ?_)
          simpa [forgetOwner] using halone
    rw [heq] at hcall
    split_ifs at hcall with hnew
    · obtain ⟨c'', hc', hcons⟩ := consistent_recordOwner hbase hlists hlive hwk hnew
        fun p hp => (hready p hp).imp_left And.right
      rw [hc'] at hcall
      cases hcall
      exact hcons
    · cases hcall
      refine consistent_unown hbase hlists hlive hwk fun p hp => ?_
      exact (hready p hp).resolve_left fun hcase => hnew hcase.1

theorem objectCache_cases (bus : String) (c : Connection) :
    (∃ d, objectCache bus c = (d, c) ∧ c.cacheMember bus = some d ∧ Live c d) ∨
    (objectCache bus c = (c.directoryCount, {c with
        directories := Function.update c.directories c.directoryCount {busName := bus}
        directoryCount := c.directoryCount + 1
        cacheMember := Function.update c.cacheMember bus (some c.directoryCount)}) ∧
      ∀ d, c.cacheMember bus = some d → ¬ Live c d) := by
  unfold objectCache
  rcases getDirectory_cases bus c with ⟨d, hget, hmember, hlive⟩ | ⟨hget, hdead⟩
  · rw [hget]
    exact .inl ⟨d, rfl, hmember, hlive⟩
  · rw [hget]
    refine .inr ⟨?_, hdead⟩
    simp only [Function.update_idem]

theorem cached_add (h : Cached c) {bus : String}
    (hdead : ∀ d, c.cacheMember bus = some d → ¬ Live c d) :
    Cached {c with
      directories := Function.update c.directories c.directoryCount {busName := bus}
      directoryCount := c.directoryCount + 1
      cacheMember := Function.update c.cacheMember bus (some c.directoryCount)} where
  bound d hd := by
    by_cases hnew : d = c.directoryCount
    · rw [hnew]
      exact Nat.lt_succ_self _
    · simp only [Live, Function.update_of_ne hnew] at hd
      exact Nat.lt_succ_of_lt (h.bound d hd)
  cache d hd := by
    by_cases hnew : d = c.directoryCount
    · subst hnew
      simp
    · simp only [Live, Function.update_of_ne hnew] at hd ⊢
      have hname : (c.directories d).busName ≠ bus := by
        rintro rfl
        exact hdead d (h.cache d hd) hd
      rw [Function.update_of_ne hname]
      exact h.cache d hd
  cacheEntry n d hd := by
    by_cases hn : n = bus
    · subst hn
      simp only [Function.update_self, Option.some.injEq] at hd
      subst hd
      exact ⟨Nat.lt_succ_self _, by simp⟩
    · simp only [Function.update_of_ne hn] at hd
      obtain ⟨hlt, hname⟩ := h.cacheEntry n d hd
      exact ⟨Nat.lt_succ_of_lt hlt, by simpa [Nat.ne_of_lt hlt] using hname⟩

/-- A directory is made for a name whose member was dead. -/
theorem consistent_addDirectory (h : Consistent c) {bus : String}
    (hdead : ∀ d, c.cacheMember bus = some d → ¬ Live c d) :
    Consistent {c with
      directories := Function.update c.directories c.directoryCount {busName := bus}
      directoryCount := c.directoryCount + 1
      cacheMember := Function.update c.cacheMember bus (some c.directoryCount)} := by
  obtain ⟨h, hlists⟩ := h
  have hcached := cached_add h.toCached hdead
  generalize hc' : ({c with
      directories := Function.update c.directories c.directoryCount {busName := bus}
      directoryCount := c.directoryCount + 1
      cacheMember := Function.update c.cacheMember bus (some c.directoryCount)} :
        Connection) = c' at hcached ⊢
  have hself : c'.directories c.directoryCount = {busName := bus} := by
    subst hc'
    exact Function.update_self ..
  have hother : ∀ e, e ≠ c.directoryCount → c'.directories e = c.directories e := by
    intro e he
    subst hc'
    exact Function.update_of_ne he ..
  have hcount : c'.directoryCount = c.directoryCount + 1 := by rw [← hc']
  have hpeers : c'.peers = c.peers := by rw [← hc']
  -- a directory that is alive is the new one, which has no owner, or was there
  have hlive : ∀ e, Live c' e → e = c.directoryCount ∨ e ≠ c.directoryCount ∧ Live c e := by
    intro e he
    by_cases hnew : e = c.directoryCount
    · exact .inl hnew
    · rw [Live, hother e hnew] at he
      exact .inr ⟨hnew, he⟩
  have howned : ∀ e, Live c' e → ∀ p, (c'.directories e).owner = some p →
      c'.directories e = c.directories e ∧ Live c e := by
    intro e he p hp
    rcases hlive e he with rfl | ⟨hne, hold⟩
    · rw [hself] at hp
      cases hp
    · exact ⟨hother e hne, hold⟩
  constructor
  · refine ⟨hcached, ?_, ?_, ?_, ?_, ?_, ?_⟩
    · intro e he r hr
      rcases hlive e he with rfl | ⟨hne, hold⟩
      · rw [hself] at hr
        cases hr
      · rw [hother e hne] at hr ⊢
        have hnamed := h.named e hold r hr
        rw [← hc']
        exact hnamed
    · intro e he p hp
      obtain ⟨heq, hold⟩ := howned e he p hp
      rw [heq] at hp ⊢
      have hown := h.owned e hold p hp
      rw [← hc']
      exact hown
    · rw [← hc']
      exact h.peerEntry
    · rw [← hc']
      exact h.oneName
    · intro p n e halive he hle
      rw [hpeers] at he
      have hne : e ≠ c.directoryCount := Nat.ne_of_lt (h.entry p n e he)
      obtain ⟨f, hf, hfp⟩ := (peerAlive_iff hcached.bound).mp halive
      obtain ⟨heq, hf⟩ := howned f hf p hfp
      rw [heq] at hfp
      rw [Live, hother e hne] at hle
      rw [hother e hne]
      exact h.listed p n e (h.peerAlive_of_owner hf hfp) he hle
    · intro p n e he
      rw [hpeers] at he
      rw [hcount]
      exact Nat.lt_succ_of_lt (h.entry p n e he)
  · intro e he p hp _
    obtain ⟨heq, hold⟩ := howned e he p hp
    rw [heq] at hp ⊢
    rw [hpeers]
    exact hlists e hold p hp (by rintro ⟨⟩)

theorem consistent_objectCache (h : Consistent c) (bus : String) :
    Consistent (objectCache bus c).2 := by
  rcases objectCache_cases bus c with ⟨d, hcache, -, -⟩ | ⟨hcache, hdead⟩
  · rw [hcache]
    exact h
  · rw [hcache]
    exact consistent_addDirectory h hdead

theorem directories_dropDirectory {e : DirectoryId} (he : e ≠ d) :
    (dropDirectory d c).directories e = c.directories e := Function.update_of_ne he ..

theorem live_dropDirectory {e : DirectoryId} :
    Live (dropDirectory d c) e ↔ e ≠ d ∧ Live c e := by
  by_cases he : e = d
  · subst he
    simp [Live, dropDirectory, Connection.setDirectory]
  · rw [Live, directories_dropDirectory he]
    exact (and_iff_right he).symm

theorem busName_dropDirectory (e : DirectoryId) :
    ((dropDirectory d c).directories e).busName = (c.directories e).busName := by
  by_cases he : e = d
  · subst he
    simp [dropDirectory, Connection.setDirectory]
  · rw [directories_dropDirectory he]

theorem cached_drop (h : Cached c) (d : DirectoryId) : Cached (dropDirectory d c) where
  bound e he := h.bound e (live_dropDirectory.mp he).2
  cache e he := by
    rw [busName_dropDirectory]
    exact h.cache e (live_dropDirectory.mp he).2
  cacheEntry n e he := by
    rw [busName_dropDirectory]
    exact h.cacheEntry n e he

theorem consistent_dropDirectory (h : Consistent c) (d : DirectoryId) :
    Consistent (dropDirectory d c) := by
  obtain ⟨h, hlists⟩ := h
  have hbound : ∀ e, Live (dropDirectory d c) e → e < c.directoryCount := fun e he =>
    h.bound e (live_dropDirectory.mp he).2
  constructor
  · refine ⟨cached_drop h.toCached d, ?_, ?_, h.peerEntry, h.oneName, ?_, h.entry⟩
    · intro e he r hr
      obtain ⟨hne, hlive⟩ := live_dropDirectory.mp he
      rw [directories_dropDirectory hne] at hr ⊢
      exact h.named e hlive r hr
    · intro e he p hp
      obtain ⟨hne, hlive⟩ := live_dropDirectory.mp he
      rw [directories_dropDirectory hne] at hp ⊢
      exact h.owned e hlive p hp
    · intro p n e halive he hle
      obtain ⟨f, hf, hfp⟩ := (peerAlive_iff hbound).mp halive
      obtain ⟨hfd, hf⟩ := live_dropDirectory.mp hf
      obtain ⟨hed, hle⟩ := live_dropDirectory.mp hle
      rw [directories_dropDirectory hfd] at hfp
      rw [directories_dropDirectory hed]
      exact h.listed p n e (h.peerAlive_of_owner hf hfp) he hle
  · intro e he p hp _
    obtain ⟨hne, hlive⟩ := live_dropDirectory.mp he
    rw [directories_dropDirectory hne] at hp ⊢
    exact hlists e hlive p hp nofun

theorem consistent_newConnection : Consistent newConnection := by
  have hdead : ∀ d, ¬ Live newConnection d := fun d hd => Bool.noConfusion hd
  refine ⟨⟨⟨?_, ?_, nofun⟩, ?_, ?_, nofun, nofun, nofun, nofun⟩, ?_⟩
  all_goals
    intro d hd
    exact absurd hd (hdead d)

theorem consistent_exec (h : Consistent c) {a : Call} (hsynced : Synced c a)
    (hexec : exec a c = .ok c') : Consistent c' := by
  cases a with
  | get bus =>
      cases hexec
      exact consistent_objectCache h bus
  | dies d =>
      cases hexec
      exact consistent_dropDirectory h d
  | nameChanged wk old new => exact consistent_nameChanged h hsynced hexec

theorem consistent_of_run (hrun : ReflTransGen (Move Synced) newConnection c) : Consistent c := by
  induction hrun with
  | refl => exact consistent_newConnection
  | tail _ hmove ih =>
      obtain ⟨a, hsynced, hexec⟩ := hmove
      exact consistent_exec ih hsynced hexec

/-! ## The maps after a call -/

/-- Every directory is listed under its name by its owner and by no other peer, and the owner is
registered under the name that the directory has for it. -/
structure Owned (c : Connection) : Prop where
  listedByOwner : ∀ d, Live c d → ∀ p, (c.directories d).owner = some p →
    c.peers p (c.directories d).busName = some d
  registered : ∀ d, Live c d → ∀ p, (c.directories d).owner = some p →
    ∃ r, (c.directories d).ownerName = some r ∧ c.peerMember r = some p
  listedByNoOther : ∀ d, Live c d → ∀ p n, peerAlive c p = true → c.peers p n = some d →
    n = (c.directories d).busName ∧ (c.directories d).owner = some p

/-- The old owner is not the one that is recorded. -/
def Desynced (c : Connection) (wk old : String) : Prop :=
  isUnique wk = false ∧ old ≠ "" ∧ ∃ d, c.cacheMember wk = some d ∧ Live c d ∧
    ∃ r, (c.directories d).ownerName = some r ∧ old ≠ r

/-- All members have been dropped before the new owner was recorded. -/
def Dropped (new : String) (c : Connection) : Prop :=
  (∀ n, c.cacheMember n = none) ∧ ∀ n, n ≠ new → c.peerMember n = none

theorem owned_of_consistent (h : Consistent c) : Owned c where
  listedByOwner d hd p hp := h.lists d hd p hp nofun
  registered d hd p hp := by
    obtain ⟨-, r, hr⟩ := h.base.owned d hd p hp
    obtain ⟨-, q, hq, hmember⟩ := h.base.named d hd r hr
    rw [hp, Option.some.injEq] at hq
    exact ⟨r, hr, hq ▸ hmember⟩
  listedByNoOther d hd p n halive hlisted := by
    obtain ⟨hn, hp⟩ := h.base.listed p n d halive hlisted hd
    exact ⟨hn.symm, hp⟩

theorem cacheMember_recordOwner {new : String} (hrec : recordOwner d wk new c = .ok c') :
    c'.cacheMember = c.cacheMember := by
  rcases recordOwner_cases d wk new c with ⟨q, -, -, heq⟩ | ⟨-, heq⟩
  all_goals
    rw [heq] at hrec
    cases hrec
    rfl

/-- No call drops a directory that is there. -/
theorem not_dropped {old new : String} (hunique : isUnique wk = false)
    (hmember : c.cacheMember wk = some d) (hd : Live c d)
    (hcall : diDbusNameChanged wk old new c = .ok c') : ¬ Dropped new c' := by
  intro hdropped
  have hnone := hdropped.1 wk
  obtain ⟨-, hcache⟩ := forgetOwner_frame wk old c
  rcases nameChanged_cases wk old new c with ⟨hcase, -⟩ | ⟨-, hdead, -⟩ | ⟨-, e, -, -, heq⟩
  · rw [hunique] at hcase
    cases hcase
  · exact hdead d hmember hd
  · rw [heq] at hcall
    split_ifs at hcall with hnew
    · rw [cacheMember_recordOwner hcall, hcache, hmember] at hnone
      cases hnone
    · cases hcall
      rw [show (unown e (forgetOwner wk old c)).cacheMember = _ from hcache, hmember] at hnone
      cases hnone

/-- A peer that is alive and is not the owner lists the directory. -/
theorem not_owned_of_listed {n : String} (hd : Live c' d) (hlisted : c'.peers p n = some d)
    (howner : (c'.directories d).owner ≠ some p) {e : DirectoryId} (he : Live c' e)
    (hlt : e < c'.directoryCount) (hep : (c'.directories e).owner = some p) : ¬ Owned c' := by
  intro howned
  have halive : peerAlive c' p = true := by
    simp only [peerAlive, List.any_eq_true, List.mem_range, Bool.and_eq_true, beq_iff_eq]
    exact ⟨e, hlt, he, hep⟩
  exact howner (howned.listedByNoOther d hd p n halive hlisted).2

/-- When another peer becomes the owner, the one before it lists the directory still. -/
theorem not_owned_withOwner {new : String} (hd : Live c d) (hlisted : c.peers p wk = some d)
    (hpq : p ≠ q) {e : DirectoryId} (he : Live c e) (hed : e ≠ d) (hlt : e < c.directoryCount)
    (hep : (c.directories e).owner = some p) : ¬ Owned (withOwner c d q wk new) := by
  refine not_owned_of_listed (p := p) (n := wk) (live_withOwner.mpr hd) ?_ ?_
    (live_withOwner.mpr he) hlt ?_
  · simp only [withOwner, Function.update_of_ne hpq]
    exact hlisted
  · simpa [withOwner] using hpq.symm
  · simpa only [withOwner, Function.update_of_ne hed] using hep

/-- Without an old owner, the peer that is recorded lists the directory still. -/
theorem not_owned_after (h : Consistent c) {r new : String} (hd : Live c d)
    (hr : (c.directories d).ownerName = some r) (hp : (c.directories d).owner = some p)
    (hnew : new ≠ r) {e : DirectoryId} (he : Live c e) (hed : e ≠ d)
    (hep : (c.directories e).owner = some p) (hwk : (c.directories d).busName = wk)
    (hresult : (if new ≠ "" then recordOwner d wk new c else .ok (unown d c)) = .ok c') :
    ¬ Owned c' := by
  have hlisted := h.lists d hd p hp nofun
  have hbound := h.base.bound e he
  obtain ⟨hlt, -⟩ := h.base.owned d hd p hp
  obtain ⟨-, p', hp', hmember⟩ := h.base.named d hd r hr
  rw [hp, Option.some.injEq] at hp'
  subst hp'
  rw [hwk] at hlisted
  split_ifs at hresult
  · rcases recordOwner_cases d wk new c with ⟨q, hq, -, heq⟩ | ⟨-, heq⟩
    · have hpq : p ≠ q := by
        rintro rfl
        exact hnew (h.base.oneName new r p hq hmember)
      rw [heq] at hresult
      cases hresult
      exact not_owned_withOwner hd hlisted hpq he hed hbound hep
    · have hpq : p ≠ c.peerCount := Nat.ne_of_lt hlt
      rw [heq] at hresult
      cases hresult
      exact not_owned_withOwner (c := {c with
        peers := Function.update c.peers c.peerCount fun _ => none
        peerCount := c.peerCount + 1
        peerMember := Function.update c.peerMember new (some c.peerCount)})
        hd ((congrFun (Function.update_of_ne hpq ..) wk).trans hlisted) hpq he hed hbound hep
  · cases hresult
    have hother : (unown d c).directories e = c.directories e := Function.update_of_ne hed ..
    refine not_owned_of_listed (d := d) (e := e) ?_ hlisted ?_ ?_ hbound ?_
    · simpa [Live, unown, Connection.setDirectory] using hd
    · simp [unown, Connection.setDirectory]
    · rw [Live, hother]
      exact he
    · rw [hother]
      exact hep

/-- As long as the calls agree with what is recorded, the maps agree. After the next call, whatever
it is, they agree and a difference has dropped all members, if and only if it agrees too. -/
theorem owner_directories_consistent (hrun : ReflTransGen (Move Synced) newConnection c) :
    Owned c ∧ ∀ wk old new, ∃ c', diDbusNameChanged wk old new c = .ok c' ∧
      ((Owned c' ∧ (Desynced c wk old → Dropped new c')) ↔
        Synced c (.nameChanged wk old new)) := by
  have h := consistent_of_run hrun
  refine ⟨owned_of_consistent h, ?_⟩
  intro wk old new
  obtain ⟨c', hcall⟩ := nameChanged_ok wk old new c
  refine ⟨c', hcall, ?_, ?_⟩
  · rintro ⟨howned, hdropped⟩
    rcases nameChanged_cases wk old new c with
      ⟨hunique, -⟩ | ⟨-, hdead, -⟩ | ⟨hunique, d, hmember, hd, heq⟩
    · exact .inl hunique
    · exact .inr fun d hd hlive => absurd hlive (hdead d hd)
    · refine .inr fun e he _ r hr p hp => ?_
      rw [hmember] at he
      cases he
      rw [Option.mem_def] at hr hp
      by_cases hold : old = r
      · exact .inl hold
      by_cases hempty : old = ""
      · subst hempty
        refine .inr ⟨rfl, ?_⟩
        by_contra! hcase
        obtain ⟨hne, halone⟩ := hcase
        simp only [Alone, not_forall, not_not] at halone
        obtain ⟨e, -, hed, he, hep⟩ := halone
        rw [hcall] at heq
        exact not_owned_after h hd hr hp hne he hed hep (h.base.cacheEntry wk d hmember).2 heq.symm
          howned
      · exact absurd (hdropped ⟨hunique, hempty, d, hmember, hd, r, hr, hold⟩)
          (not_dropped hunique hmember hd hcall)
  · intro hsynced
    refine ⟨owned_of_consistent (consistent_nameChanged h hsynced hcall), ?_⟩
    rintro ⟨hunique, hempty, d, hmember, hd, r, hr, hne⟩
    obtain ⟨-, p, hp, -⟩ := h.base.named d hd r hr
    rcases hsynced with hcase | hagrees
    · rw [hunique] at hcase
      cases hcase
    · rcases hagrees d hmember hd r hr p hp with hold | ⟨hold, -⟩
      · exact absurd hold hne
      · exact absurd hold hempty

/-! ## Two names with one owner -/

instance (c : Connection) (d : DirectoryId) : Decidable (Live c d) :=
  inferInstanceAs (Decidable (_ = true))

instance (c : Connection) (d : DirectoryId) (p : PeerId) : Decidable (Alone c d p) :=
  inferInstanceAs (Decidable (∀ e, e < c.directoryCount → _))

instance (c : Connection) (d : DirectoryId) (old new : String) : Decidable (Agrees c d old new) :=
  inferInstanceAs (Decidable (∀ r ∈ (c.directories d).ownerName, _))

instance (c : Connection) (a : Call) : Decidable (Synced c a) :=
  match a with
  | .get _ => inferInstanceAs (Decidable True)
  | .dies _ => inferInstanceAs (Decidable True)
  | .nameChanged wk _ _ => inferInstanceAs (Decidable (isUnique wk = true ∨
      ∀ d ∈ c.cacheMember wk, _))

/-- The calls are made as long as each agrees. -/
def runSynced : List Call → Connection → Option Connection
  | [], c => some c
  | a :: rest, c =>
      if Synced c a then
        match exec a c with
        | .ok c' => runSynced rest c'
        | .error _ => none
      else none

theorem reaches_of_runSynced (calls : List Call) (hrun : runSynced calls c = some c') :
    ReflTransGen (Move Synced) c c' := by
  induction calls generalizing c with
  | nil =>
      cases hrun
      exact .refl
  | cons a rest ih =>
      rw [runSynced] at hrun
      split_ifs at hrun with hsynced
      cases hexec : exec a c with
      | error e =>
          rw [hexec] at hrun
          cases hrun
      | ok c₁ =>
          rw [hexec] at hrun
          exact .head ⟨a, hsynced, hexec⟩ (ih hrun)

def sharedOwner : Connection :=
  (runSynced [.get "org.a", .get "org.b", .nameChanged "org.a" "" ":1.5",
    .nameChanged "org.b" "" ":1.5"] newConnection).getD newConnection

theorem sharedOwner_reached : ReflTransGen (Move Synced) newConnection sharedOwner :=
  reaches_of_runSynced [.get "org.a", .get "org.b", .nameChanged "org.a" "" ":1.5",
    .nameChanged "org.b" "" ":1.5"] rfl

theorem owner_directories_consistent_sharedOwner :
    (sharedOwner.directories 0).owner = some 0 ∧ (sharedOwner.directories 1).owner = some 0 ∧
      Owned sharedOwner ∧ ∃ c', diDbusNameChanged "org.a" ":1.5" ":1.7" sharedOwner = .ok c' ∧
        Owned c' := by
  obtain ⟨howned, hnext⟩ := owner_directories_consistent sharedOwner_reached
  obtain ⟨c', hcall, hiff⟩ := hnext "org.a" ":1.5" ":1.7"
  exact ⟨rfl, rfl, howned, c', hcall, (hiff.mpr (by decide)).1⟩

/-- The signal names an old owner that is not recorded. Nothing is dropped, and the peer that was
the owner lists the directory still. -/
theorem desync_leaves_listing :
    ∃ c', ReflTransGen (Move fun _ _ => True) newConnection sharedOwner ∧
      diDbusNameChanged "org.a" ":1.9" ":1.7" sharedOwner = .ok c' ∧
      Desynced sharedOwner "org.a" ":1.9" ∧ ¬ Dropped ":1.7" c' ∧ ¬ Owned c' := by
  refine ⟨_, ?_, rfl,
    ⟨by decide, by decide, 0, rfl, rfl, ":1.5", rfl, by decide⟩, ?_, ?_⟩
  · exact ReflTransGen.mono (fun _ _ ⟨a, _, hexec⟩ => ⟨a, trivial, hexec⟩) _ _ sharedOwner_reached
  · intro hdropped
    cases hdropped.1 "org.a"
  · exact not_owned_of_listed (p := 0) (n := "org.a") (d := 0) (e := 1) rfl rfl (by decide) rfl
      (by decide) rfl

end Deai.DesyncedOwners
