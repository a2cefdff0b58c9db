import Deai.DbusOwners

/-!
# Directories and the peers that list them

What the maps of a connection have in common: a directory is listed by its owner only, and the
owner is registered under the name that the directory has for it. The parts of
`di_dbus_name_changed` that forget the old owner and record the new one keep this.
-/
namespace Deai.OwnerDirectories
open DbusOwners Relation

variable {c c' : Connection} {d : DirectoryId} {p q : PeerId} {n wk : String}

def Live (c : Connection) (d : DirectoryId) : Prop := (c.directories d).alive = true

/-- A directory that is alive is the member for its name. -/
structure Cached (c : Connection) : Prop where
  bound : ∀ d, Live c d → d < c.directoryCount
  cache : ∀ d, Live c d → c.cacheMember (c.directories d).busName = some d
  cacheEntry : ∀ n d, c.cacheMember n = some d →
    d < c.directoryCount ∧ (c.directories d).busName = n

/-- The directories that are alive and the members for them are the same. -/
structure SameDirectories (c c' : Connection) : Prop where
  count : c'.directoryCount = c.directoryCount
  alive : ∀ e, (c'.directories e).alive = (c.directories e).alive
  busName : ∀ e, (c'.directories e).busName = (c.directories e).busName
  entry : ∀ n e, c'.cacheMember n = some e → c.cacheMember n = some e
  member : ∀ n e, c.cacheMember n = some e → Live c e → c'.cacheMember n = some e

theorem SameDirectories.rfl : SameDirectories c c :=
  ⟨Eq.refl _, fun _ => Eq.refl _, fun _ => Eq.refl _, fun _ _ h => h, fun _ _ h _ => h⟩

theorem SameDirectories.live (h : SameDirectories c c') : Live c' d ↔ Live c d := by
  rw [Live, Live, h.alive]

theorem SameDirectories.trans {c'' : Connection} (h : SameDirectories c c')
    (h' : SameDirectories c' c'') : SameDirectories c c'' where
  count := h'.count.trans h.count
  alive e := (h'.alive e).trans (h.alive e)
  busName e := (h'.busName e).trans (h.busName e)
  entry n e he := h.entry n e (h'.entry n e he)
  member n e he hlive := h'.member n e (h.member n e he hlive) (h.live.mpr hlive)

theorem Cached.same (h : Cached c) (hsame : SameDirectories c c') : Cached c' where
  bound d hd := by
    rw [hsame.count]
    exact h.bound d (hsame.live.mp hd)
  cache d hd := by
    have hlive := hsame.live.mp hd
    rw [hsame.busName]
    exact hsame.member _ _ (h.cache d hlive) hlive
  cacheEntry n d hd := by
    rw [hsame.count, hsame.busName]
    exact h.cacheEntry n d (hsame.entry n d hd)

theorem Cached.eq_of_busName (h : Cached c) {e : DirectoryId} (hd : Live c d) (he : Live c e)
    (hname : (c.directories d).busName = (c.directories e).busName) : d = e := by
  have hmember := h.cache d hd
  rw [hname, h.cache e he] at hmember
  exact (Option.some.inj hmember).symm

/-- The maps agree, but for the names that a directory is listed under. -/
structure Base (c : Connection) : Prop extends Cached c where
  named : ∀ d, Live c d → ∀ r, (c.directories d).ownerName = some r →
    r ≠ "" ∧ ∃ p, (c.directories d).owner = some p ∧ c.peerMember r = some p
  owned : ∀ d, Live c d → ∀ p, (c.directories d).owner = some p →
    p < c.peerCount ∧ ∃ r, (c.directories d).ownerName = some r
  peerEntry : ∀ n p, c.peerMember n = some p → p < c.peerCount
  oneName : ∀ m n p, c.peerMember m = some p → c.peerMember n = some p → m = n
  listed : ∀ p n e, peerAlive c p = true → c.peers p n = some e → Live c e →
    (c.directories e).busName = n ∧ (c.directories e).owner = some p
  entry : ∀ p n e, c.peers p n = some e → e < c.directoryCount

/-- The owner of a directory lists it, unless its name is the one given. -/
def Lists (c : Connection) (except : Option String) : Prop :=
  ∀ d, Live c d → ∀ p, (c.directories d).owner = some p →
    except ≠ some (c.directories d).busName → c.peers p (c.directories d).busName = some d

/-- All maps agree. -/
structure Consistent (c : Connection) : Prop where
  base : Base c
  lists : Lists c none

theorem peerAlive_iff (hbound : ∀ d, Live c d → d < c.directoryCount) :
    peerAlive c p = true ↔ ∃ d, Live c d ∧ (c.directories d).owner = some p := by
  simp only [peerAlive, List.any_eq_true, List.mem_range, Bool.and_eq_true, beq_iff_eq]
  constructor
  · rintro ⟨d, -, hlive, howner⟩
    exact ⟨d, hlive, howner⟩
  · rintro ⟨d, hlive, howner⟩
    exact ⟨d, hbound d hlive, hlive, howner⟩

theorem Base.peerAlive_of_owner (h : Base c) (hd : Live c d)
    (hp : (c.directories d).owner = some p) : peerAlive c p = true :=
  (peerAlive_iff h.bound).mpr ⟨d, hd, hp⟩

/-! ## Members that are dead -/

theorem getPeer_cases (n : String) (c : Connection) :
    (∃ p, getPeer n c = (some p, c) ∧ c.peerMember n = some p ∧ peerAlive c p = true) ∨
    (getPeer n c = (none, {c with peerMember := Function.update c.peerMember n none}) ∧
      ∀ p, c.peerMember n = some p → peerAlive c p = false) := by
  unfold getPeer
  cases hn : c.peerMember n with
  | none =>
      right
      rw [show Function.update c.peerMember n none = c.peerMember from by
        rw [← hn]
        exact Function.update_eq_self n c.peerMember]
      exact ⟨rfl, nofun⟩
  | some p =>
      cases halive : peerAlive c p with
      | true => exact .inl ⟨p, by simp [halive], rfl, halive⟩
      | false =>
          refine .inr ⟨by simp [halive], ?_⟩
          intro q hq
          cases hq
          exact halive

theorem getDirectory_cases (n : String) (c : Connection) :
    (∃ d, getDirectory n c = (some d, c) ∧ c.cacheMember n = some d ∧ Live c d) ∨
    (getDirectory n c = (none, {c with cacheMember := Function.update c.cacheMember n none}) ∧
      ∀ d, c.cacheMember n = some d → ¬ Live c d) := by
  unfold getDirectory
  cases hn : c.cacheMember n with
  | none =>
      right
      rw [show Function.update c.cacheMember n none = c.cacheMember from by
        rw [← hn]
        exact Function.update_eq_self n c.cacheMember]
      exact ⟨rfl, nofun⟩
  | some d =>
      cases halive : (c.directories d).alive with
      | true => exact .inl ⟨d, by simp [halive], rfl, halive⟩
      | false =>
          refine .inr ⟨by simp [halive], ?_⟩
          intro e he
          cases he
          simp [Live, halive]

/-- A member that is dead goes. -/
theorem sameDirectories_clear (hdead : ∀ e, c.cacheMember n = some e → ¬ Live c e) :
    SameDirectories c {c with cacheMember := Function.update c.cacheMember n none} := by
  refine ⟨rfl, fun _ => rfl, fun _ => rfl, ?_, ?_⟩
  · intro m e he
    by_cases hm : m = n
    · subst hm
      simp at he
    · simpa only [Function.update_of_ne hm] using he
  · intro m e he hlive
    have hm : m ≠ n := by
      rintro rfl
      exact hdead e he hlive
    simpa only [Function.update_of_ne hm] using he

theorem Base.clearPeer (h : Base c)
    (hdead : ∀ p, c.peerMember n = some p → peerAlive c p = false) :
    Base {c with peerMember := Function.update c.peerMember n none} := by
  have hold : ∀ m p, Function.update c.peerMember n none m = some p → c.peerMember m = some p := by
    intro m p hm
    by_cases hmn : m = n
    · subst hmn
      simp at hm
    · rwa [Function.update_of_ne hmn] at hm
  refine {h with named := ?_, peerEntry := ?_, oneName := ?_}
  · intro d hd r hr
    obtain ⟨hne, p, hp, hmember⟩ := h.named d hd r hr
    refine ⟨hne, p, hp, ?_⟩
    have hrn : r ≠ n := by
      rintro rfl
      have halive := h.peerAlive_of_owner hd hp
      rw [hdead p hmember] at halive
      cases halive
    simp only [Function.update_of_ne hrn]
    exact hmember
  · exact fun m p hm => h.peerEntry m p (hold m p hm)
  · exact fun m k p hm hk => h.oneName m k p (hold m p hm) (hold k p hk)

theorem Base.clearCache (h : Base c) (hdead : ∀ d, c.cacheMember n = some d → ¬ Live c d) :
    Base {c with cacheMember := Function.update c.cacheMember n none} :=
  {h with toCached := h.toCached.same (sameDirectories_clear hdead)}

/-! ## The old owner -/

theorem Base.deleteEntry (h : Base c) (p : PeerId) (wk : String) :
    Base (c.setPeer p fun m => Function.update m wk none) := by
  have hold : ∀ q n e, (c.setPeer p fun m => Function.update m wk none).peers q n = some e →
      c.peers q n = some e := by
    intro q n e he
    by_cases hq : q = p
    · subst hq
      simp only [Connection.setPeer, Function.update_self] at he
      by_cases hn : n = wk
      · subst hn
        simp at he
      · rwa [Function.update_of_ne hn] at he
    · simpa only [Connection.setPeer, Function.update_of_ne hq] using he
  refine {h with listed := ?_, entry := ?_}
  · exact fun q n e hq he hlive => h.listed q n e hq (hold q n e he) hlive
  · exact fun q n e he => h.entry q n e (hold q n e he)

theorem Lists.deleteEntry (h : Lists c none) (p : PeerId) (wk : String) :
    Lists (c.setPeer p fun m => Function.update m wk none) (some wk) := by
  intro d hd q hq hne
  have hname : (c.directories d).busName ≠ wk := fun heq => hne (by rw [← heq]; rfl)
  have hold := h d hd q hq nofun
  by_cases hqp : q = p
  · subst hqp
    simp only [Connection.setPeer, Function.update_self, Function.update_of_ne hname]
    exact hold
  · simp only [Connection.setPeer, Function.update_of_ne hqp]
    exact hold

theorem forgetOwner_frame (wk old : String) (c : Connection) :
    (forgetOwner wk old c).directories = c.directories ∧
      (forgetOwner wk old c).cacheMember = c.cacheMember := by
  unfold forgetOwner
  by_cases hold : old = ""
  · rw [if_pos hold]
    exact ⟨rfl, rfl⟩
  · rw [if_neg hold]
    rcases getPeer_cases old c with ⟨q, hget, -, -⟩ | ⟨hget, -⟩
    all_goals
      rw [hget]
      exact ⟨rfl, rfl⟩

/-- What the first part of the function leaves: the recorded owner does not list the directory
any more if it is the old owner. -/
theorem forgetOwner_spec (h : Consistent c) (wk old : String) :
    Base (forgetOwner wk old c) ∧ Lists (forgetOwner wk old c) (some wk) ∧
      ∀ d, Live c d → (c.directories d).ownerName = some old → ∀ p,
        (c.directories d).owner = some p → (forgetOwner wk old c).peers p wk = none := by
  have hsome : Lists c (some wk) := fun d hd p hp _ => h.lists d hd p hp nofun
  unfold forgetOwner
  by_cases hold : old = ""
  · rw [if_pos hold]
    refine ⟨h.base, hsome, ?_⟩
    intro d hd hname
    exact absurd hold (h.base.named d hd old hname).1
  · rw [if_neg hold]
    rcases getPeer_cases old c with ⟨q, hget, hmember, halive⟩ | ⟨hget, hdead⟩
    · rw [hget]
      refine ⟨h.base.deleteEntry q wk, h.lists.deleteEntry q wk, ?_⟩
      intro d hd hname p hp
      obtain ⟨-, p', hp', hmember'⟩ := h.base.named d hd old hname
      rw [hp, Option.some.injEq] at hp'
      subst hp'
      rw [hmember, Option.some.injEq] at hmember'
      subst hmember'
      simp [Connection.setPeer]
    · rw [hget]
      refine ⟨h.base.clearPeer hdead, hsome, ?_⟩
      intro d hd hname p hp
      obtain ⟨-, p', hp', hmember⟩ := h.base.named d hd old hname
      have halive := h.base.peerAlive_of_owner hd hp'
      rw [hdead p' hmember] at halive
      cases halive

/-! ## The new owner -/

/-- No directory but `d` has the peer for its owner. -/
def Alone (c : Connection) (d : DirectoryId) (p : PeerId) : Prop :=
  ∀ e, e < c.directoryCount → e ≠ d → Live c e → (c.directories e).owner ≠ some p

/-- A peer is made; the member that it gets was dead. -/
theorem Base.addPeer (h : Base c)
    (hdead : ∀ p, c.peerMember n = some p → peerAlive c p = false) :
    Base {c with
      peers := Function.update c.peers c.peerCount fun _ => none
      peerCount := c.peerCount + 1
      peerMember := Function.update c.peerMember n (some c.peerCount)} := by
  have hold : ∀ p m e, Function.update c.peers c.peerCount (fun _ => none) p m = some e →
      c.peers p m = some e := by
    intro p m e he
    by_cases hp : p = c.peerCount
    · subst hp
      simp at he
    · rwa [Function.update_of_ne hp] at he
  refine {h with named := ?_, owned := ?_, peerEntry := ?_, oneName := ?_, listed := ?_, entry := ?_}
  · intro d hd r hr
    obtain ⟨hne, p, hp, hmember⟩ := h.named d hd r hr
    refine ⟨hne, p, hp, ?_⟩
    have hrn : r ≠ n := by
      rintro rfl
      have halive := h.peerAlive_of_owner hd hp
      rw [hdead p hmember] at halive
      cases halive
    simp only [Function.update_of_ne hrn]
    exact hmember
  · intro d hd p hp
    obtain ⟨hlt, hr⟩ := h.owned d hd p hp
    exact ⟨Nat.lt_succ_of_lt hlt, hr⟩
  · intro m p hm
    by_cases hmn : m = n
    · subst hmn
      simp only [Function.update_self, Option.some.injEq] at hm
      subst hm
      exact Nat.lt_succ_self _
    · simp only [Function.update_of_ne hmn] at hm
      exact Nat.lt_succ_of_lt (h.peerEntry m p hm)
  · intro m k p hm hk
    by_cases hmn : m = n <;> by_cases hkn : k = n
    · exact hmn.trans hkn.symm
    · subst hmn
      simp only [Function.update_self, Option.some.injEq, Function.update_of_ne hkn] at hm hk
      subst hm
      exact absurd (h.peerEntry k _ hk) (Nat.lt_irrefl _)
    · subst hkn
      simp only [Function.update_self, Option.some.injEq, Function.update_of_ne hmn] at hm hk
      subst hk
      exact absurd (h.peerEntry m _ hm) (Nat.lt_irrefl _)
    · simp only [Function.update_of_ne hmn, Function.update_of_ne hkn] at hm hk
      exact h.oneName m k p hm hk
  · exact fun p m e hp he hlive => h.listed p m e hp (hold p m e he) hlive
  · exact fun p m e he => h.entry p m e (hold p m e he)

/-- A directory gets its owner, whose member is there. -/
def withOwner (c : Connection) (d : DirectoryId) (q : PeerId) (wk new : String) : Connection :=
  {c with
    directories := Function.update c.directories d
      {c.directories d with ownerName := some new, owner := some q}
    peers := Function.update c.peers q (Function.update (c.peers q) wk (some d))}

theorem live_withOwner {e : DirectoryId} {new : String} :
    Live (withOwner c d q wk new) e ↔ Live c e := by
  unfold Live withOwner
  by_cases he : e = d
  · subst he
    simp
  · simp [Function.update_of_ne he]

theorem busName_withOwner {e : DirectoryId} {new : String} :
    ((withOwner c d q wk new).directories e).busName = (c.directories e).busName := by
  unfold withOwner
  by_cases he : e = d
  · subst he
    simp
  · simp [Function.update_of_ne he]

theorem sameDirectories_withOwner {new : String} :
    SameDirectories c (withOwner c d q wk new) :=
  ⟨rfl, fun _ => Bool.eq_iff_iff.mpr live_withOwner, fun _ => busName_withOwner, fun _ _ he => he,
    fun _ _ he _ => he⟩

theorem Base.busName_ne (h : Base c) (hd : Live c d) (hwk : (c.directories d).busName = wk)
    {e : DirectoryId} (he : Live c e) (hne : e ≠ d) : (c.directories e).busName ≠ wk := by
  intro heq
  exact hne (h.eq_of_busName he hd (heq.trans hwk.symm))

/-- The owner that the directory had is gone, or does not list it, or is the new one. -/
theorem consistent_withOwner (h : Base c) (hlists : Lists c (some wk)) (hd : Live c d)
    (hwk : (c.directories d).busName = wk) {new : String} (hnew : new ≠ "")
    (hmember : c.peerMember new = some q)
    (hq : ∀ n e, c.peers q n = some e → Live c e →
      (c.directories e).busName = n ∧ (c.directories e).owner = some q)
    (hready : ∀ p, (c.directories d).owner = some p → p = q ∨ c.peers p wk = none ∨ Alone c d p) :
    Consistent (withOwner c d q wk new) := by
  have hself : (withOwner c d q wk new).directories d =
      {c.directories d with ownerName := some new, owner := some q} := Function.update_self ..
  have hother : ∀ e, e ≠ d → (withOwner c d q wk new).directories e = c.directories e := fun e he =>
    Function.update_of_ne he ..
  have hpeer : ∀ p n, (withOwner c d q wk new).peers p n =
      if p = q ∧ n = wk then some d else c.peers p n := by
    intro p n
    by_cases hp : p = q
    · subst hp
      by_cases hn : n = wk
      · subst hn
        simp [withOwner]
      · simp [withOwner, hn]
    · simp [withOwner, hp]
  have hbound : ∀ e, Live (withOwner c d q wk new) e → e < c.directoryCount := fun e he =>
    h.bound e (live_withOwner.mp he)
  constructor
  · refine ⟨h.toCached.same sameDirectories_withOwner, ?_, ?_, h.peerEntry, h.oneName, ?_, ?_⟩
    · intro e he r hr
      by_cases hed : e = d
      · subst hed
        rw [hself, Option.some.injEq] at hr
        subst hr
        exact ⟨hnew, q, by rw [hself], hmember⟩
      · rw [hother e hed] at hr ⊢
        exact h.named e (live_withOwner.mp he) r hr
    · intro e he p hp
      by_cases hed : e = d
      · subst hed
        rw [hself, Option.some.injEq] at hp
        subst hp
        exact ⟨h.peerEntry new q hmember, new, by rw [hself]⟩
      · rw [hother e hed] at hp ⊢
        exact h.owned e (live_withOwner.mp he) p hp
    · intro p n e halive he hlive
      rw [busName_withOwner]
      rw [live_withOwner] at hlive
      rw [hpeer] at he
      split_ifs at he with hcase
      · cases he
        exact ⟨hwk.trans hcase.2.symm, by rw [hself, hcase.1]⟩
      · by_cases hpq : p = q
        · subst hpq
          obtain ⟨hn, howner⟩ := hq n e he hlive
          have hed : e ≠ d := by
            rintro rfl
            exact hcase ⟨rfl, hn.symm.trans hwk⟩
          exact ⟨hn, by rw [hother e hed]; exact howner⟩
        · -- a peer that is still alive has another directory
          obtain ⟨f, hf, hfp⟩ := (peerAlive_iff hbound).mp halive
          have hfd : f ≠ d := by
            rintro rfl
            rw [hself, Option.some.injEq] at hfp
            exact hpq hfp.symm
          rw [hother f hfd] at hfp
          rw [live_withOwner] at hf
          obtain ⟨hn, howner⟩ := h.listed p n e (h.peerAlive_of_owner hf hfp) he hlive
          have hed : e ≠ d := by
            rintro rfl
            rcases hready p howner with hsame | hnone | halone
            · exact hpq hsame
            · rw [← hn, hwk, hnone] at he
              cases he
            · exact halone f (h.bound f hf) hfd hf hfp
          exact ⟨hn, by rw [hother e hed]; exact howner⟩
    · intro p n e he
      rw [hpeer] at he
      split_ifs at he with hcase
      · cases he
        exact h.bound d hd
      · exact h.entry p n e he
  · intro e he p hp _
    rw [busName_withOwner, hpeer]
    rw [live_withOwner] at he
    by_cases hed : e = d
    · subst hed
      rw [hself, Option.some.injEq] at hp
      rw [if_pos ⟨hp.symm, hwk⟩]
    · rw [hother e hed] at hp
      have hname := h.busName_ne hd hwk he hed
      rw [if_neg fun hcase => hname hcase.2]
      exact hlists e he p hp fun heq => hname (Option.some.inj heq).symm

theorem sameDirectories_unown : SameDirectories c (unown d c) := by
  have hother : ∀ e, e ≠ d → (unown d c).directories e = c.directories e := fun e he =>
    Function.update_of_ne he ..
  refine ⟨rfl, ?_, ?_, fun _ _ he => he, fun _ _ he _ => he⟩
  all_goals
    intro e
    by_cases he : e = d
    · subst he
      simp [unown, Connection.setDirectory]
    · rw [hother e he]

theorem consistent_unown (h : Base c) (hlists : Lists c (some wk)) (hd : Live c d)
    (hwk : (c.directories d).busName = wk)
    (hready : ∀ p, (c.directories d).owner = some p → c.peers p wk = none ∨ Alone c d p) :
    Consistent (unown d c) := by
  have hself : (unown d c).directories d =
      {c.directories d with owner := none, ownerName := none} := Function.update_self ..
  have hother : ∀ e, e ≠ d → (unown d c).directories e = c.directories e := fun e he =>
    Function.update_of_ne he ..
  have hsame : SameDirectories c (unown d c) := sameDirectories_unown
  have hlive : ∀ e, Live (unown d c) e ↔ Live c e := fun _ => hsame.live
  have hbound : ∀ e, Live (unown d c) e → e < c.directoryCount := fun e he =>
    h.bound e ((hlive e).mp he)
  constructor
  · refine ⟨h.toCached.same hsame, ?_, ?_, h.peerEntry, h.oneName, ?_, h.entry⟩
    · intro e he r hr
      by_cases hed : e = d
      · subst hed
        rw [hself] at hr
        cases hr
      · rw [hother e hed] at hr ⊢
        exact h.named e ((hlive e).mp he) r hr
    · intro e he p hp
      by_cases hed : e = d
      · subst hed
        rw [hself] at hp
        cases hp
      · rw [hother e hed] at hp ⊢
        exact h.owned e ((hlive e).mp he) p hp
    · intro p n e halive he hle
      rw [hsame.busName]
      rw [hlive] at hle
      obtain ⟨f, hf, hfp⟩ := (peerAlive_iff hbound).mp halive
      have hfd : f ≠ d := by
        rintro rfl
        rw [hself] at hfp
        cases hfp
      rw [hother f hfd] at hfp
      rw [hlive] at hf
      obtain ⟨hn, howner⟩ := h.listed p n e (h.peerAlive_of_owner hf hfp) he hle
      have hed : e ≠ d := by
        rintro rfl
        rcases hready p howner with hnone | halone
        · rw [← hn, hwk] at he
          cases hnone.symm.trans he
        · exact halone f (h.bound f hf) hfd hf hfp
      exact ⟨hn, by rw [hother e hed]; exact howner⟩
  · intro e he p hp _
    rw [hsame.busName]
    rw [hlive] at he
    have hed : e ≠ d := by
      rintro rfl
      rw [hself] at hp
      cases hp
    rw [hother e hed] at hp
    have hne := h.busName_ne hd hwk he hed
    exact hlists e he p hp fun heq => hne (Option.some.inj heq).symm

theorem recordOwner_cases (d : DirectoryId) (wk new : String) (c : Connection) :
    (∃ q, c.peerMember new = some q ∧ peerAlive c q = true ∧
      recordOwner d wk new c = .ok (withOwner c d q wk new)) ∨
    ((∀ p, c.peerMember new = some p → peerAlive c p = false) ∧
      recordOwner d wk new c = .ok (withOwner {c with
        peers := Function.update c.peers c.peerCount fun _ => none
        peerCount := c.peerCount + 1
        peerMember := Function.update c.peerMember new (some c.peerCount)} d c.peerCount wk new)) := by
  have halive : ∀ p, peerAlive (c.setDirectory d fun y => {y with ownerName := some new}) p =
      peerAlive c p := by
    intro p
    unfold peerAlive Connection.setDirectory
    congr 1
    funext e
    by_cases he : e = d
    · subst he
      simp
    · simp [Function.update_of_ne he]
  rcases getPeer_cases new (c.setDirectory d fun y => {y with ownerName := some new}) with
    ⟨q, hget, hmember, hq⟩ | ⟨hget, hdead⟩
  · refine .inl ⟨q, hmember, (halive q).symm.trans hq, ?_⟩
    simp only [recordOwner, peerFor, hget, bind, Except.bind]
    simp [Connection.setDirectory, Connection.setPeer, withOwner]
  · refine .inr ⟨fun p hp => (halive p).symm.trans (hdead p hp), ?_⟩
    simp only [recordOwner, peerFor, hget, bind, Except.bind]
    simp [Connection.setDirectory, Connection.setPeer, withOwner]

theorem consistent_recordOwner (h : Base c) (hlists : Lists c (some wk)) (hd : Live c d)
    (hwk : (c.directories d).busName = wk) {new : String} (hnew : new ≠ "")
    (hready : ∀ p, (c.directories d).owner = some p →
      c.peerMember new = some p ∨ c.peers p wk = none ∨ Alone c d p) :
    ∃ c', recordOwner d wk new c = .ok c' ∧ Consistent c' := by
  rcases recordOwner_cases d wk new c with ⟨q, hmember, hq, hrec⟩ | ⟨hdead, hrec⟩
  · refine ⟨_, hrec, consistent_withOwner h hlists hd hwk hnew hmember ?_ ?_⟩
    · exact fun n e he hlive => h.listed q n e hq he hlive
    · intro p hp
      rcases hready p hp with hsame | hrest
      · exact .inl (Option.some.inj (hsame.symm.trans hmember))
      · exact .inr hrest
  · refine ⟨_, hrec, consistent_withOwner (h.addPeer hdead) ?_ hd hwk hnew
      (Function.update_self ..) ?_ ?_⟩
    · intro e he p hp hne
      have hlt := (h.owned e he p hp).1
      have hold := hlists e he p hp hne
      simp only [Function.update_of_ne (Nat.ne_of_lt hlt)]
      exact hold
    · intro n e he
      simp at he
    · intro p hp
      have hlt := (h.owned d hd p hp).1
      rcases hready p hp with hsame | hrest
      · have halive := h.peerAlive_of_owner hd hp
        rw [hdead p hsame] at halive
        cases halive
      · right
        simp only [Function.update_of_ne (Nat.ne_of_lt hlt)]
        exact hrest

end Deai.OwnerDirectories
