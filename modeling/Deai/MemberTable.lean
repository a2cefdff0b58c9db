import Deai.UtHashRuns
import Deai.MemberEnumeration
import Mathlib.Data.List.TakeWhile

/-!
# Member tables

The member table of an object is a hash of `uthash`, and a member is an element that is allocated
with its name and its value. To the rest of `object.c` it is a list of names and values in the
order they were added, and that is what it is taken for elsewhere.
-/
namespace Deai.MemberTable
open UtHash ObjectHeap MemberEnumeration

/-- The bytes of a name. -/
def bytes (name : String) : Key := name.toByteArray.data.toList

theorem bytes_injective : Function.Injective bytes := by
  intro a b h
  exact String.toByteArray_inj.mp (ByteArray.ext (Array.toList_inj.mp h))

/-- The members of an object, and the memory that they are in. -/
structure Members (N : Type*) where
  hash : Hash N
  node : N → Member
  allocated : List N

variable {N : Type*} [DecidableEq N]

/-- `di_lookup` -/
def diLookup (fuel : ℕ) (t : Members N) : Name → Except Stop (Option N)
  | none => .ok none
  | some name => hashFind fuel t.hash (bytes name)

/-- `check_new_member` -/
def checkNewMember (fuel : ℕ) (t : Members N) (name : Name) : Except Stop (Option Errno) :=
  match name with
  | none => .ok (some .einval)
  | some n => (hashFind fuel t.hash (bytes n)).map fun om =>
      if om.isSome then some .eexist else none

/-- `di_insert_member` -/
def diInsertMember (malloc : ℕ → Bool) (fuel : ℕ) (t : Members N) (name : String) (m : N) :
    Except Stop (Option Errno × Members N) :=
  (checkNewMember fuel t (some name)).bind fun ret =>
    match ret with
    | some e => .ok (some e, t)
    | none => (hashAddKeyptr malloc fuel t.hash (bytes name) m).map fun hash =>
        (none, {t with hash := hash})

def Members.free (t : Members N) (m : N) : Members N := {t with allocated := t.allocated.erase m}

/-- `di_add_member`, with the memory that is allocated for the member. -/
def diAddMember (malloc : ℕ → Bool) (fuel : ℕ) (t : Members N) (name : Name) (v : Value.DiValue)
    (m : N) : Except Stop (Option Errno × Members N) :=
  match name with
  | none => .ok (some .einval, t)
  | some n =>
      let t := {t with node := write t.node m (n, v), allocated := m :: t.allocated}
      (diInsertMember malloc fuel t n m).map fun ret =>
        if ret.1.isSome then (ret.1, ret.2.free m) else ret

/-- `di_remove_member_raw_impl` -/
def diRemoveMemberRawImpl (t : Members N) (m : N) : Value.DiValue × Members N :=
  ((t.node m).2, {t with hash := hashDelete t.hash m}.free m)

/-- `di_remove_member_raw` -/
def diRemoveMemberRaw (fuel : ℕ) (t : Members N) (name : Name) :
    Except Stop (Except Errno Value.DiValue × Members N) :=
  (diLookup fuel t name).map fun m =>
    match m with
    | none => (.error .enoent, t)
    | some m => ((.ok (diRemoveMemberRawImpl t m).1), (diRemoveMemberRawImpl t m).2)

/-- The end of `di_setx`, when the member is there: it gets the new value. -/
def replaceValue (fuel : ℕ) (t : Members N) (name : Name) (v : Value.DiValue) :
    Except Stop (Bool × Members N) :=
  (diLookup fuel t name).map fun mem =>
    match mem with
    | none => (false, t)
    | some m => (true, {t with node := write t.node m ((t.node m).1, v)})

/-- The loop of `di_object_next_member`, over `hh.next`. -/
def skipHiddenNodes (t : Members N) : ℕ → Option N → Except Stop (Option N)
  | _, none => .ok none
  | 0, some _ => .error .outOfFuel
  | fuel + 1, some m =>
      if hidden (t.node m).1 then skipHiddenNodes t fuel (t.hash.hh m).next else .ok (some m)

/-- What `di_object_next_member` finds in the table. -/
def nextNode (fuel : ℕ) (t : Members N) (name : Name) : Except Stop (Option N) :=
  match name with
  | none => skipHiddenNodes t fuel t.hash.head
  | some _ => (diLookup fuel t name).bind fun m =>
      skipHiddenNodes t fuel (m.bind fun m => (t.hash.hh m).next)

/-- `di_get_all_member_names_raw`. Nothing is returned when its assertion fails. -/
def diGetAllMemberNamesRaw (fuel : ℕ) (t : Members N) : Except Stop (Option (List String)) :=
  let length := hashCnt t.hash
  (hashIter (fun _ => t.hash) (fun i names => .ok (names ++ [(t.node i).1])) fuel []).map
    fun names => if names.length = length then some names else none

/-! ## What the table stores -/

/-- The members in the order of the hash. -/
def rows (t : Members N) (es : List (N × Key)) : List Member := es.map fun e => t.node e.1

/-- The hash knows each member by its name, no name is there twice, and nothing else is in the
memory for members. -/
structure Stores (t : Members N) (es : List (N × Key)) (m : ℕ) : Prop where
  rep : Rep t.hash es m
  keys : ∀ e ∈ es, e.2 = bytes (t.node e.1).1
  nodup : (names (rows t es)).Nodup
  allocated : (es.map Prod.fst).Perm t.allocated

omit [DecidableEq N] in
theorem Stores.mono {t : Members N} {es : List (N × Key)} {m n : ℕ} (h : Stores t es m)
    (hn : m ≤ n) : Stores t es n :=
  ⟨h.rep.mono hn, h.keys, h.nodup, h.allocated⟩

variable {t : Members N} {es : List (N × Key)} {x : N} {m fuel : ℕ} {name : String}

omit [DecidableEq N] in
/-- The row of an element whose member has the name. -/
theorem Stores.find_row (h : Stores t es m) {k : Key} (hx : (x, k) ∈ es)
    (hname : (t.node x).1 = name) :
    (rows t es).find? (fun r => r.1 == name) = some (t.node x) := by
  have hmem : t.node x ∈ rows t es := List.mem_map.mpr ⟨(x, k), hx, rfl⟩
  cases hfind : (rows t es).find? (fun r => r.1 == name) with
  | none => exact absurd (beq_iff_eq.mpr hname) (List.find?_eq_none.mp hfind _ hmem)
  | some r =>
      have hr := List.find?_some hfind
      rw [beq_iff_eq] at hr
      exact congrArg some (List.inj_on_of_nodup_map h.nodup (List.mem_of_find?_eq_some hfind) hmem
        (hr.trans hname.symm))

omit [DecidableEq N] in
/-- A search of the hash finds the row with the name. -/
theorem hashFind_rows (h : Stores t es m) (hfuel : es.length ≤ fuel) (name : String) :
    ∃ r, hashFind fuel t.hash (bytes name) = .ok r ∧
      r.map t.node = (rows t es).find? (fun r => r.1 == name) ∧
      ∀ x, r = some x → x ∈ es.map Prod.fst ∧ (t.node x).1 = name := by
  obtain ⟨r, hrun, hsome, hnone⟩ := hashFind_spec h.rep hfuel (bytes name)
  have hfound : ∀ x, r = some x → (x, bytes name) ∈ es ∧ (t.node x).1 = name := fun x hx =>
    ⟨hsome x hx, (bytes_injective (h.keys _ (hsome x hx))).symm⟩
  refine ⟨r, hrun, ?_, fun x hx => ⟨?_, (hfound x hx).2⟩⟩
  · cases r with
    | some x =>
        obtain ⟨hx, hname⟩ := hfound x rfl
        exact (h.find_row hx hname).symm
    | none =>
        refine (List.find?_eq_none.mpr fun r hr heq => ?_).symm
        obtain ⟨e, he, rfl⟩ := List.mem_map.mp hr
        exact hnone rfl e he ((h.keys e he).trans (congrArg bytes (beq_iff_eq.mp heq)))
  · exact List.mem_map.mpr ⟨_, (hfound x hx).1, rfl⟩

omit [DecidableEq N] in
/-- Whether a name is there, as `List.any` says it. -/
theorem find_isSome (ms : List Member) (name : String) :
    (ms.find? fun r => r.1 == name).isSome = ms.any fun r => r.1 == name := by
  rw [Bool.eq_iff_iff, List.find?_isSome, List.any_eq_true]

/-- Memory that is not in the table may be written to. -/
theorem write_fresh (hx : x ∉ es.map Prod.fst) (r : Member) {e : N × Key} (he : e ∈ es) :
    write t.node x r e.1 = t.node e.1 := by
  have hne : e.1 ≠ x := fun heq => hx (heq ▸ List.mem_map_of_mem he)
  exact Function.update_of_ne hne ..

/-! ## Edits -/

/-- One edit of the members: what is allocated for it, and where. -/
structure Step (N : Type*) where
  edit : Edit
  malloc : ℕ → Bool
  node : N

def Step.run (fuel : ℕ) (s : Step N) (t : Members N) :
    Except Stop (Option Errno × Members N) :=
  match s.edit with
  | .add r => diAddMember s.malloc fuel t (some r.1) r.2 s.node
  | .delete name => (diRemoveMemberRaw fuel t (some name)).map fun ret =>
      (match ret.1 with | .ok _ => none | .error e => some e, ret.2)
  | .set r => (replaceValue fuel t (some r.1) r.2).map fun ret =>
      (if ret.1 then none else some .enoent, ret.2)

/-- The code that an edit of a list of members returns. -/
def status : Edit → List Member → Option Errno
  | .add r, ms => if ms.any (·.1 == r.1) then some .eexist else none
  | .delete name, ms => if ms.any (·.1 == name) then none else some .enoent
  | .set r, ms => if ms.any (·.1 == r.1) then none else some .enoent

/-- The memory for a new member is not that of a member, and its name fits `unsigned`. -/
def Step.Allowed (s : Step N) (t : Members N) : Prop :=
  match s.edit with
  | .add r => s.node ∉ t.allocated ∧ (bytes r.1).length < 2 ^ 32
  | _ => True

theorem storedKey_eq {key : Key} (h : key.length < 2 ^ 32) : storedKey key = key := by
  rw [storedKey, Nat.mod_eq_of_lt h, List.take_length]

/-- `di_add_member` puts a new name behind the others, and leaves a name that is there. -/
theorem add_spec (h : Stores t es m) {malloc : ℕ → Bool} {r : Member} (hx : x ∉ t.allocated)
    (hlen : (bytes r.1).length < 2 ^ 32) (hfuel : es.length < fuel)
    (hlimit : ∀ n, 2 ^ 36 ≤ n → malloc n = false) :
    (Refused malloc m ∧ diAddMember malloc fuel t (some r.1) r.2 x = .error .exited) ∨
      ∃ t' es', diAddMember malloc fuel t (some r.1) r.2 x =
          .ok (status (.add r) (rows t es), t') ∧
        Stores t' es' (m + 1) ∧ rows t' es' = (Edit.add r).apply (rows t es) ∧
        es'.length ≤ es.length + 1 := by
  have hxe : x ∉ es.map Prod.fst := fun hmem => hx (h.allocated.subset hmem)
  let t₀ : Members N :=
    {t with node := write t.node x (r.1, r.2), allocated := x :: t.allocated}
  have hnode : ∀ e ∈ es, t₀.node e.1 = t.node e.1 := fun e he => write_fresh hxe _ he
  have hrows : rows t₀ es = rows t es := List.map_congr_left hnode
  have hfree : Stores (t₀.free x) es m :=
    ⟨h.rep, fun e he => (h.keys e he).trans (congrArg (fun q => bytes q.1) (hnode e he).symm),
      (congrArg (fun ms => (names ms).Nodup) hrows).mpr h.nodup,
      by simpa [Members.free, t₀] using h.allocated⟩
  obtain ⟨om, hfind, hom, -⟩ := hashFind_rows hfree hfuel.le r.1
  have hany : om.isSome = (rows t es).any fun q => q.1 == r.1 := by
    rw [← hrows, ← find_isSome]
    exact ((congrArg Option.isSome hom.symm).trans (Option.isSome_map ..)).symm
  have hrun : diAddMember malloc fuel t (some r.1) r.2 x =
      (if om.isSome then .ok (some .eexist, t₀.free x)
      else (hashAddKeyptr malloc fuel t.hash (bytes r.1) x).map fun hash =>
        (none, {t₀ with hash := hash})) := by
    have hfind' : hashFind fuel t₀.hash (bytes r.1) = .ok om := hfind
    have hunfold : diAddMember malloc fuel t (some r.1) r.2 x =
      (diInsertMember malloc fuel t₀ r.1 x).map fun ret =>
        if ret.1.isSome then (ret.1, ret.2.free x) else ret := rfl
    rw [hunfold, diInsertMember, checkNewMember, hfind']
    cases om with
    | some y => rfl
    | none =>
        simp only [Except.map, Except.bind, t₀]
        cases hashAddKeyptr malloc fuel t.hash (bytes r.1) x <;> rfl
  rw [hrun, hany, status, Edit.apply]
  split_ifs with hin
  · exact .inr ⟨_, es, rfl, hfree.mono (Nat.le_succ m), hrows, Nat.le_succ _⟩
  · have hself : t₀.node x = r := Function.update_self ..
    rcases hashAddKeyptr_spec (bytes r.1) h.rep hxe hfuel hlimit with
      ⟨hrefused, hadd⟩ | ⟨hash, hadd, hrep⟩
    · exact .inl ⟨hrefused, by rw [hadd]; rfl⟩
    · have hadded : rows {t₀ with hash := hash} (es ++ [(x, storedKey (bytes r.1))]) =
          rows t es ++ [r] := by
        rw [← hrows, ← hself]
        exact List.map_append ..
      refine .inr ⟨{t₀ with hash := hash}, _, by rw [hadd]; rfl,
        ⟨hrep, fun e he => ?_, ?_, ?_⟩, hadded, by simp⟩
      · rcases List.mem_append.mp he with he | he
        · exact hfree.keys e he
        · obtain rfl := List.mem_singleton.mp he
          simp only [hself, storedKey_eq hlen]
      · rw [hadded]
        have hnodup := (Edit.add r).apply_nodup h.nodup
        rwa [Edit.apply, if_neg hin] at hnodup
      · rw [List.map_append]
        exact List.perm_append_comm.trans (h.allocated.cons x)

omit [DecidableEq N] in
/-- A member is found by its name alone. -/
theorem Stores.eq_iff (h : Stores t es m) (hx : x ∈ es.map Prod.fst) {e : N × Key} (he : e ∈ es) :
    (t.node e.1).1 = (t.node x).1 ↔ e.1 = x := by
  obtain ⟨e', he', rfl⟩ := List.mem_map.mp hx
  refine ⟨fun heq => ?_, fun heq => by rw [heq]⟩
  have hnodup : (es.map fun e => (t.node e.1).1).Nodup := by
    have := h.nodup
    rwa [names, rows, List.map_map] at this
  rw [List.inj_on_of_nodup_map hnodup he he' heq]

/-- Where no name is twice, the first member with a name is the only one. -/
theorem eraseP_eq_filter {ms : List Member} (hms : (names ms).Nodup) (name : String) :
    (ms.eraseP fun r => r.1 == name) = ms.filter fun r => !(r.1 == name) := by
  induction ms with
  | nil => rfl
  | cons r ms ih =>
      obtain ⟨hr, hms⟩ := List.nodup_cons.mp hms
      by_cases hname : r.1 = name
      · subst hname
        rw [List.eraseP_cons_of_pos (by simp), List.filter_cons_of_neg (by simp),
          List.filter_eq_self.mpr fun q hq => ?_]
        have hne : q.1 ≠ r.1 := fun heq => hr (List.mem_map.mpr ⟨q, hq, heq⟩)
        simpa using hne
      · rw [List.eraseP_cons_of_neg (by simpa using hname),
          List.filter_cons_of_pos (by simpa using hname), ih hms]

/-- `di_remove_member_raw` takes the member with the name out. -/
theorem delete_spec (h : Stores t es m) (hfuel : es.length ≤ fuel) (name : String) :
    ∃ ret t' es', diRemoveMemberRaw fuel t (some name) = .ok (ret, t') ∧
      (match ret with | .ok _ => none | .error e => some e) = status (.delete name) (rows t es) ∧
      Stores t' es' m ∧ rows t' es' = (Edit.delete name).apply (rows t es) ∧
      es'.length ≤ es.length := by
  obtain ⟨r, hfind, hr, hfound⟩ := hashFind_rows h hfuel name
  have hany : r.isSome = (rows t es).any fun q => q.1 == name := by
    rw [← find_isSome, ← hr, Option.isSome_map]
  rw [diRemoveMemberRaw, diLookup, hfind, Edit.apply, eraseP_eq_filter h.nodup]
  cases r with
  | none =>
      refine ⟨_, t, es, rfl, ?_, h, ?_, Nat.le_refl _⟩
      · rw [status, ← hany]
        rfl
      · refine (List.filter_eq_self.mpr fun q hq => ?_).symm
        rw [Option.isSome_none] at hany
        simpa using List.any_eq_false.mp hany.symm q hq
  | some x =>
      obtain ⟨hx, hname⟩ := hfound x rfl
      have hrows : rows t (es.filter fun e => e.1 ≠ x) =
          (rows t es).filter fun r => !(r.1 == name) := by
        rw [rows, rows, List.filter_map]
        refine congrArg _ (List.filter_congr fun e he => ?_)
        have hiff := h.eq_iff hx he
        rw [hname] at hiff
        by_cases hex : e.1 = x
        · simp [hex, hname]
        · simp [hex, mt hiff.mp hex]
      refine ⟨_, _, es.filter fun e => e.1 ≠ x, rfl, ?_, ⟨h.rep.delete hx, fun e he => ?_, ?_, ?_⟩,
        hrows, List.length_filter_le _ _⟩
      · rw [status, ← hany]
        rfl
      · exact h.keys e (List.mem_of_mem_filter he)
      · exact h.nodup.sublist ((List.filter_sublist.map _).map _)
      · refine List.Perm.trans (List.Perm.of_eq ?_) (h.allocated.erase x)
        rw [h.rep.order.nodup.erase_eq_filter, List.filter_map]
        refine congrArg _ (List.filter_congr fun e _ => ?_)
        by_cases hex : e.1 = x <;> simp [hex]

/-- The value of a member that is there is replaced in its place. -/
theorem replace_spec (h : Stores t es m) (hfuel : es.length ≤ fuel) (r : Member) :
    ∃ found t', replaceValue fuel t (some r.1) r.2 = .ok (found, t') ∧
      (if found then none else some .enoent) = status (.set r) (rows t es) ∧
      Stores t' es m ∧ rows t' es = (Edit.set r).apply (rows t es) := by
  obtain ⟨q, hfind, hq, hfound⟩ := hashFind_rows h hfuel r.1
  have hany : q.isSome = (rows t es).any fun p => p.1 == r.1 := by
    rw [← find_isSome, ← hq, Option.isSome_map]
  rw [replaceValue, diLookup, hfind]
  cases q with
  | none =>
      refine ⟨false, t, rfl, ?_, h, ?_⟩
      · rw [status, ← hany]
        rfl
      · rw [Option.isSome_none] at hany
        refine ((List.map_congr_left fun q hq => if_neg ?_).trans (List.map_id' _)).symm
        simpa using List.any_eq_false.mp hany.symm q hq
  | some x =>
      obtain ⟨hx, hname⟩ := hfound x rfl
      have hrow : ∀ e ∈ es, write t.node x ((t.node x).1, r.2) e.1 =
          if (t.node e.1).1 = r.1 then r else t.node e.1 := by
        intro e he
        have hiff := h.eq_iff hx he
        rw [hname] at hiff ⊢
        split_ifs with heq
        · rw [hiff.mp heq]
          exact Function.update_self ..
        · exact Function.update_of_ne (fun hex => heq (hiff.mpr hex)) ..
      have hrows : rows {t with node := write t.node x ((t.node x).1, r.2)} es =
          (Edit.set r).apply (rows t es) := by
        rw [Edit.apply, rows, rows, List.map_map]
        exact List.map_congr_left hrow
      refine ⟨true, _, rfl, ?_, ⟨h.rep, fun e he => ?_, ?_, h.allocated⟩, hrows⟩
      · rw [status, ← hany]
        rfl
      · refine (h.keys e he).trans (congrArg bytes ?_)
        refine Eq.trans ?_ (congrArg Prod.fst (hrow e he)).symm
        split_ifs with heq
        · exact heq
        · rfl
      · rw [hrows]
        exact (Edit.set r).apply_nodup h.nodup

/-! ## Runs of edits -/

def Step.Limited (s : Step N) : Prop := ∀ n, 2 ^ 36 ≤ n → s.malloc n = false

/-- One edit does to the table what it does to the list. -/
theorem Step.run_spec {s : Step N} (h : Stores t es m) (hallowed : s.Allowed t)
    (hlimited : s.Limited) (hfuel : es.length < fuel) :
    (Refused s.malloc m ∧ s.run fuel t = .error .exited) ∨
      ∃ t' es', s.run fuel t = .ok (status s.edit (rows t es), t') ∧ Stores t' es' (m + 1) ∧
        rows t' es' = s.edit.apply (rows t es) ∧ es'.length ≤ es.length + 1 := by
  obtain ⟨edit, malloc, node⟩ := s
  cases edit with
  | add r => exact add_spec h hallowed.1 hallowed.2 hfuel hlimited
  | delete name =>
      obtain ⟨ret, t', es', hrun, hstatus, hstores, hrows, hlen⟩ := delete_spec h hfuel.le name
      refine .inr ⟨t', es', ?_, hstores.mono (Nat.le_succ m),
        hrows, hlen.trans (Nat.le_succ _)⟩
      simp only [Step.run, hrun, Except.map, hstatus]
  | set r =>
      obtain ⟨found, t', hrun, hstatus, hstores, hrows⟩ := replace_spec h hfuel.le r
      refine .inr ⟨t', es, ?_, hstores.mono (Nat.le_succ m),
        hrows, Nat.le_succ _⟩
      simp only [Step.run, hrun, Except.map, hstatus]

/-- The edits of a run, each with the codes it returns. -/
def runSteps (fuel : ℕ) : List (Step N) → Members N → Except Stop (List (Option Errno) × Members N)
  | [], t => .ok ([], t)
  | s :: steps, t => (s.run fuel t).bind fun ret =>
      (runSteps fuel steps ret.2).map fun rest => (ret.1 :: rest.1, rest.2)

/-- Every edit of the run is allowed when its turn comes. -/
def AllAllowed (fuel : ℕ) : List (Step N) → Members N → Prop
  | [], _ => True
  | s :: steps, t => s.Allowed t ∧
      match s.run fuel t with
      | .ok ret => AllAllowed fuel steps ret.2
      | .error _ => True

instance (s : Step N) (t : Members N) : Decidable (s.Allowed t) :=
  match s with
  | ⟨.add r, _, m⟩ => inferInstanceAs (Decidable (m ∉ t.allocated ∧ (bytes r.1).length < 2 ^ 32))
  | ⟨.delete _, _, _⟩ => .isTrue trivial
  | ⟨.set _, _, _⟩ => .isTrue trivial

instance AllAllowed.decidable (fuel : ℕ) :
    (steps : List (Step N)) → (t : Members N) → Decidable (AllAllowed fuel steps t)
  | [], _ => .isTrue trivial
  | s :: steps, t =>
      have : Decidable (match s.run fuel t with
          | .ok ret => AllAllowed fuel steps ret.2
          | .error _ => True) :=
        match s.run fuel t with
        | .ok ret => AllAllowed.decidable fuel steps ret.2
        | .error _ => .isTrue trivial
      inferInstanceAs (Decidable (_ ∧ _))

/-- The codes that the edits of a list return. -/
def statuses : List Edit → List Member → List (Option Errno)
  | [], _ => []
  | e :: edits, ms => status e ms :: statuses edits (e.apply ms)

theorem runSteps_spec {steps : List (Step N)} (h : Stores t es m)
    (hallowed : AllAllowed fuel steps t) (hlimited : ∀ s ∈ steps, s.Limited)
    (hfuel : es.length + steps.length ≤ fuel) :
    ((∃ s ∈ steps, Refused s.malloc (m + steps.length)) ∧
        runSteps fuel steps t = .error .exited) ∨
      ∃ t' es', runSteps fuel steps t =
          .ok (statuses (steps.map Step.edit) (rows t es), t') ∧
        Stores t' es' (m + steps.length) ∧
        rows t' es' = (steps.map Step.edit).foldl (fun ms e => e.apply ms) (rows t es) ∧
        es'.length ≤ es.length + steps.length := by
  induction steps generalizing t es m with
  | nil => exact .inr ⟨t, es, rfl, h, rfl, Nat.le_refl _⟩
  | cons s steps ih =>
      rw [List.length_cons] at hfuel
      have hroom : es.length < fuel := by omega
      have hcount : m + 1 + steps.length = m + (s :: steps).length := by
        rw [List.length_cons]
        omega
      rcases Step.run_spec h hallowed.1 (hlimited s List.mem_cons_self) hroom with
        ⟨⟨n, hn, hm⟩, hrun⟩ | ⟨t', es', hrun, hstores, hrows, hlen⟩
      · refine .inl ⟨⟨s, List.mem_cons_self, n, hn.trans ?_, hm⟩, ?_⟩
        · exact Nat.pow_le_pow_right (by decide) (by omega)
        · rw [runSteps, hrun]
          rfl
      · have hrest := hallowed.2
        rw [hrun] at hrest
        rcases ih hstores hrest (fun q hq => hlimited q (List.mem_cons_of_mem _ hq))
          (by omega) with ⟨⟨q, hq, hrefused⟩, hruns⟩ | ⟨t'', es'', hruns, hstores', hrows', hlen'⟩
        · refine .inl ⟨⟨q, List.mem_cons_of_mem _ hq, hcount ▸ hrefused⟩, ?_⟩
          rw [runSteps, hrun]
          simp only [Except.bind, hruns]
          rfl
        · refine .inr ⟨t'', es'', ?_, hcount ▸ hstores', ?_, ?_⟩
          · rw [runSteps, hrun]
            simp only [Except.bind, hruns, hrows]
            rfl
          · rw [hrows', hrows]
            rfl
          · rw [List.length_cons]
            omega

/-! ## Reading the table -/

omit [DecidableEq N] in
/-- `di_object_next_member` over the rest of the table. -/
theorem skipHiddenNodes_spec {rest : List (N × Key)} {visited : List (N × Key)}
    (h : Stores t (visited ++ rest) m) (hfuel : rest.length ≤ fuel) :
    ∃ r, skipHiddenNodes t fuel (rest.head?.map Prod.fst) = .ok r ∧
      r.map t.node = skipHidden (rows t rest) := by
  induction rest generalizing visited fuel with
  | nil => exact ⟨none, by cases fuel <;> rfl, rfl⟩
  | cons e rest ih =>
      cases fuel with
      | zero => exact absurd hfuel (Nat.not_succ_le_zero _)
      | succ fuel =>
          have hnext := h.rep.first_next
          simp only [List.head?_cons, Option.map_some, Option.bind_some, List.tail_cons] at hnext
          have hassoc : visited ++ e :: rest = (visited ++ [e]) ++ rest := by simp
          rw [hassoc] at h
          obtain ⟨r, hrun, hr⟩ := ih h (Nat.le_of_succ_le_succ hfuel)
          simp only [List.head?_cons, Option.map_some, skipHiddenNodes, rows, List.map_cons,
            skipHidden]
          split_ifs with hhidden
          · exact ⟨r, by rw [hnext, hrun], hr⟩
          · exact ⟨some e.1, rfl, rfl⟩

omit [DecidableEq N] in
/-- What comes after the member with a name. -/
theorem nextNode_spec (h : Stores t es m) (hfuel : es.length ≤ fuel) (name : Name) :
    ∃ r, nextNode fuel t name = .ok r ∧ r.map t.node = skipHidden (remaining (rows t es) name) := by
  cases name with
  | none =>
      have hhead : t.hash.head = es.head?.map Prod.fst := by
        rw [h.rep.order.head]
        cases es <;> rfl
      have h' : Stores t ([] ++ es) m := h
      obtain ⟨r, hrun, hr⟩ := skipHiddenNodes_spec h' hfuel
      exact ⟨r, by rw [nextNode, hhead, hrun], hr⟩
  | some name =>
      obtain ⟨r, hfind, hr, hfound⟩ := hashFind_rows h hfuel name
      rw [nextNode, diLookup, hfind]
      cases r with
      | none =>
          refine ⟨none, by cases fuel <;> rfl, ?_⟩
          have habsent : (rows t es).dropWhile (fun q => q.1 != name) = [] := by
            rw [List.dropWhile_eq_nil_iff]
            intro q hq
            simpa using List.find?_eq_none.mp hr.symm q hq
          rw [remaining, membersAfter, habsent]
          rfl
      | some x =>
          obtain ⟨hx, hname⟩ := hfound x rfl
          obtain ⟨⟨y, k⟩, hy, rfl⟩ := List.mem_map.mp hx
          obtain ⟨a, b, rfl⟩ := List.append_of_mem hy
          have hassoc : a ++ (y, k) :: b = (a ++ [(y, k)]) ++ b := by simp
          have hnext := h.rep.first_next
          simp only [List.head?_cons, Option.map_some, Option.bind_some, List.tail_cons] at hnext
          have hrows : rows t (a ++ (y, k) :: b) = rows t a ++ t.node y :: rows t b :=
            List.map_append ..
          have hnodup := h.nodup
          rw [hrows] at hnodup ⊢
          rw [← hname, remaining, membersAfter_append hnodup]
          rw [hassoc] at h
          have hroom : b.length ≤ fuel := by
            rw [List.length_append, List.length_cons] at hfuel
            omega
          obtain ⟨r, hrun, hr⟩ := skipHiddenNodes_spec h hroom
          refine ⟨r, ?_, hr⟩
          rw [← hrun, ← hnext]
          rfl

omit [DecidableEq N] in
/-- All names, in order. The assertion holds as long as the count does. -/
theorem diGetAllMemberNamesRaw_spec (h : Stores t es m) (hfuel : es.length ≤ fuel)
    (hcount : es.length < 2 ^ 32) :
    diGetAllMemberNamesRaw fuel t = .ok (some (names (rows t es))) := by
  have hwalk : ∃ ns, hashIter (fun _ : List String => t.hash)
      (fun i ns => .ok (ns ++ [(t.node i).1])) fuel [] = .ok ns ∧ ns = names (rows t es) :=
    hashIter_rule (fun _ => true) (fun visited ns => ns = names (rows t visited))
    (fun visited rest ns hes _ => by
      rw [List.filter_eq_self.mpr fun _ _ => rfl, ← hes]
      exact h.rep)
    (fun visited e rest ns _ hns => ⟨_, rfl, by simp [hns, rows, names]⟩)
    rfl hfuel
  obtain ⟨ns, hrun, hns⟩ := hwalk
  rw [diGetAllMemberNamesRaw, hrun, hashCnt_spec h.rep, Nat.mod_eq_of_lt hcount]
  simp [Except.map, hns, rows, names]

/-- An object that began without members has, after any edits, the members that a list would have:
every edit returns the same code, every name leads to the same value, and an enumeration goes on
the same way from every name. The memory for members holds these and nothing else. -/
theorem member_table_refines {steps : List (Step N)} (hempty : t.hash.head = none)
    (hnone : t.allocated = []) (hallowed : AllAllowed fuel steps t)
    (hlimited : ∀ s ∈ steps, s.Limited) (hfuel : steps.length ≤ fuel)
    (hcount : steps.length < 2 ^ 32) :
    ((∃ s ∈ steps, Refused s.malloc steps.length) ∧ runSteps fuel steps t = .error .exited) ∨
      ∃ t', runSteps fuel steps t = .ok (statuses (steps.map Step.edit) [], t') ∧
        (∀ name, ∃ r, diLookup fuel t' (some name) = .ok r ∧
          r.map t'.node = (tableAfter (steps.map Step.edit)).find? fun q => q.1 == name) ∧
        (∀ name, ∃ r, nextNode fuel t' name = .ok r ∧
          r.map t'.node = skipHidden (remaining (tableAfter (steps.map Step.edit)) name)) ∧
        diGetAllMemberNamesRaw fuel t' =
          .ok (some (names (tableAfter (steps.map Step.edit)))) ∧
        (t'.allocated.map t'.node).Perm (tableAfter (steps.map Step.edit)) := by
  have hstart : Stores t [] 0 :=
    ⟨Rep.nil hempty 0, nofun, List.nodup_nil, by rw [hnone]; exact List.Perm.refl _⟩
  rcases runSteps_spec hstart hallowed hlimited
    (by rw [List.length_nil, Nat.zero_add]; exact hfuel) with
    ⟨hrefused, hrun⟩ | ⟨t', es, hrun, hstores, hrows, hlen⟩
  · rw [Nat.zero_add] at hrefused
    exact .inl ⟨hrefused, hrun⟩
  · rw [List.length_nil, Nat.zero_add] at hlen
    have htable : rows t' es = tableAfter (steps.map Step.edit) := hrows
    refine .inr ⟨t', hrun, fun name => ?_, fun name => ?_, ?_, ?_⟩
    · obtain ⟨r, hfind, hr, -⟩ := hashFind_rows hstores (hlen.trans hfuel) name
      exact ⟨r, hfind, htable ▸ hr⟩
    · rw [← htable]
      exact nextNode_spec hstores (hlen.trans hfuel) name
    · rw [← htable]
      exact diGetAllMemberNamesRaw_spec hstores (hlen.trans hfuel) (hlen.trans_lt hcount)
    · rw [← htable]
      exact (hstores.allocated.symm.map t'.node).trans (List.Perm.of_eq (List.map_map ..))

/-- An object without members. -/
def noMembers : Members ℕ := ⟨blank, fun _ => ("", .nil), []⟩

/-- Two members are added, one gets another value, a name is added again, and one is deleted. -/
def exampleSteps : List (Step ℕ) :=
  let malloc : ℕ → Bool := fun n => decide (n < 1024)
  [⟨.add ("a", .int 1), malloc, 1⟩, ⟨.add ("b", .int 2), malloc, 2⟩,
    ⟨.set ("a", .int 3), malloc, 0⟩, ⟨.add ("b", .int 4), malloc, 3⟩,
    ⟨.delete "b", malloc, 0⟩]

theorem exampleSteps_limited : ∀ s ∈ exampleSteps, s.Limited := by
  have hmalloc : ∀ n : ℕ, 2 ^ 36 ≤ n → decide (n < 1024) = false := fun n hn =>
    decide_eq_false (by omega)
  simp only [exampleSteps, List.forall_mem_cons, Step.Limited]
  exact ⟨hmalloc, hmalloc, hmalloc, hmalloc, hmalloc, nofun⟩

theorem member_table_refines_example :
    ∃ t', runSteps 5 exampleSteps noMembers = .ok (statuses (exampleSteps.map Step.edit) [], t') ∧
      (∀ name, ∃ r, diLookup 5 t' (some name) = .ok r ∧
        r.map t'.node = (tableAfter (exampleSteps.map Step.edit)).find? fun q => q.1 == name) ∧
      (∀ name, ∃ r, nextNode 5 t' name = .ok r ∧
        r.map t'.node = skipHidden (remaining (tableAfter (exampleSteps.map Step.edit)) name)) ∧
      diGetAllMemberNamesRaw 5 t' =
        .ok (some (names (tableAfter (exampleSteps.map Step.edit)))) ∧
      (t'.allocated.map t'.node).Perm (tableAfter (exampleSteps.map Step.edit)) := by
  have hok : (runSteps 5 exampleSteps noMembers).toBool = true := by decide +kernel
  refine (member_table_refines rfl rfl (by decide +kernel) exampleSteps_limited (by decide)
    (by decide)).resolve_left fun hexit => ?_
  rw [hexit.2] at hok
  exact nomatch hok

end Deai.MemberTable
