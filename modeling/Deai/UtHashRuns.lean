import Deai.UtHashWalks

/-!
# Runs of a hash

A hash is an ordered list of elements with keys, to whoever uses it through the macros. The hash
grows, chains and links on the side, and a walk over it may delete what it visits.
-/
namespace Deai.UtHash

variable {N : Type*} [DecidableEq N]

/-- One use of a hash. Whether an allocation succeeds is decided each time. -/
inductive Op (N : Type*) where
  | add (malloc : ℕ → Bool) (key : Key) (x : N)
  | delete (x : N)
  | sweep (unwanted : N → Bool)

/-- A walk that deletes some of what it visits, and notes what it has visited. -/
def sweepBody (unwanted : N → Bool) (x : N) (st : Hash N × List N) :
    Except Stop (Hash N × List N) :=
  .ok (if unwanted x then hashDelete st.1 x else st.1, st.2 ++ [x])

def Op.run (fuel : ℕ) : Op N → Hash N → Except Stop (Hash N)
  | .add malloc key x, s => hashAddKeyptr malloc fuel s key x
  | .delete x, s => .ok (hashDelete s x)
  | .sweep unwanted, s => (hashIter Prod.fst (sweepBody unwanted) fuel (s, [])).map Prod.fst

/-- What a use of a hash is meant to do. -/
def Op.apply : Op N → List (N × Key) → List (N × Key)
  | .add _ key x, es => es ++ [(x, storedKey key)]
  | .delete x, es => es.filter fun e => e.1 ≠ x
  | .sweep unwanted, es => es.filter fun e => !unwanted e.1

/-- An element is added while it is not in the hash, and deleted while it is. -/
def Op.Allowed : Op N → List (N × Key) → Prop
  | .add _ _ x, es => x ∉ es.map Prod.fst
  | .delete x, es => x ∈ es.map Prod.fst
  | .sweep _, _ => True

/-- The allocations of the operation are limited: no 64 GiB in one piece. -/
def Op.Limited : Op N → Prop
  | .add malloc _ _ => ∀ n, 2 ^ 36 ≤ n → malloc n = false
  | _ => True

/-- One of the smaller allocations of the operation fails. -/
def Op.Refused (m : ℕ) : Op N → Prop
  | .add malloc _ _ => UtHash.Refused malloc m
  | _ => False

def applyAll (ops : List (Op N)) (es : List (N × Key)) : List (N × Key) :=
  ops.foldl (fun es op => op.apply es) es

def runAll (fuel : ℕ) (ops : List (Op N)) (s : Hash N) : Except Stop (Hash N) :=
  ops.foldlM (fun s op => op.run fuel s) s

def AllAllowed : List (Op N) → List (N × Key) → Prop
  | [], _ => True
  | op :: ops, es => op.Allowed es ∧ AllAllowed ops (op.apply es)

/-! ## One step -/

variable {s : Hash N} {es : List (N × Key)} {x : N} {m fuel : ℕ} {op : Op N} {ops : List (Op N)}

theorem Rep.delete (h : Rep s es m) (hx : x ∈ es.map Prod.fst) :
    Rep (hashDelete s x) (es.filter fun e => e.1 ≠ x) m := by
  obtain ⟨⟨y, k⟩, he, rfl⟩ := List.mem_map.mp hx
  obtain ⟨a, b, rfl⟩ := List.append_of_mem he
  have hnodup := h.order.nodup
  rw [List.map_append, List.map_cons] at hnodup
  obtain ⟨-, hyb, hdisj⟩ := List.nodup_append.mp hnodup
  have ha : ∀ e ∈ a, e.1 ≠ y := fun e he heq =>
    hdisj e.1 (List.mem_map_of_mem he) y List.mem_cons_self heq
  have hb : ∀ e ∈ b, e.1 ≠ y := fun e he heq =>
    (List.nodup_cons.mp hyb).1 (List.mem_map.mpr ⟨e, he, heq⟩)
  have hfilter : (a ++ (y, k) :: b).filter (fun e => e.1 ≠ y) = a ++ b := by
    rw [List.filter_append, List.filter_cons_of_neg (by simp),
      List.filter_eq_self.mpr (fun e he => decide_eq_true (ha e he)),
      List.filter_eq_self.mpr fun e he => decide_eq_true (hb e he)]
  rw [hfilter]
  exact hashDelete_spec h

/-- A walk that deletes visits all elements in order, and leaves the others. -/
theorem sweep_spec (h : Rep s es m) (unwanted : N → Bool) (hfuel : es.length ≤ fuel) :
    ∃ s', hashIter Prod.fst (sweepBody unwanted) fuel (s, []) = .ok (s', es.map Prod.fst) ∧
      Rep s' (es.filter fun e => !unwanted e.1) m := by
  let keep : N × Key → Bool := fun e => !unwanted e.1
  let I : List (N × Key) → Hash N × List N → Prop := fun visited st =>
    st.2 = visited.map Prod.fst ∧ ∃ rest, es = visited ++ rest ∧
      Rep st.1 (visited.filter keep ++ rest) m
  have hwalk : ∃ st', hashIter Prod.fst (sweepBody unwanted) fuel (s, []) = .ok st' ∧ I es st' :=
    hashIter_rule keep I
    (by
      rintro visited rest st hes ⟨-, rest', hes', hrep⟩
      rwa [List.append_cancel_left (hes.symm.trans hes')])
    (by
      rintro visited e rest st hes ⟨hseen, rest', hes', hrep⟩
      obtain rfl := List.append_cancel_left (hes.symm.trans hes')
      refine ⟨_, rfl, by simp [hseen], rest, by simp [hes], ?_⟩
      rw [List.filter_append]
      cases hun : unwanted e.1 with
      | true =>
          rw [if_pos rfl, List.filter_cons_of_neg (by simp [keep, hun]), List.filter_nil,
            List.append_nil]
          exact hashDelete_spec hrep
      | false =>
          rw [if_neg (by decide), List.filter_cons_of_pos (by simp [keep, hun]), List.filter_nil,
            List.append_assoc]
          exact hrep)
    ⟨rfl, es, rfl, h⟩ hfuel
  obtain ⟨⟨s', seen⟩, hrun, hseen, rest, hes, hrep⟩ := hwalk
  obtain rfl : rest = [] := by simpa using hes
  rw [List.append_nil] at hrep
  exact ⟨s', by rw [hrun, ← hseen], hrep⟩

/-- A use of a hash does what it is meant to, unless the memory for it is not there. -/
theorem Op.run_spec (h : Rep s es m) (hallowed : op.Allowed es) (hlimited : op.Limited)
    (hfuel : es.length < fuel) :
    (op.Refused m ∧ op.run fuel s = .error .exited) ∨
      ∃ s', op.run fuel s = .ok s' ∧ Rep s' (op.apply es) (m + 1) := by
  cases op with
  | add malloc key x => exact hashAddKeyptr_spec key h hallowed hfuel hlimited
  | delete x => exact .inr ⟨_, rfl, (h.delete hallowed).mono (Nat.le_succ m)⟩
  | sweep unwanted =>
      obtain ⟨s', hrun, hrep⟩ := sweep_spec h unwanted hfuel.le
      exact .inr ⟨s', by rw [Op.run, hrun]; rfl, hrep.mono (Nat.le_succ m)⟩

theorem Op.apply_length (op : Op N) (es : List (N × Key)) :
    (op.apply es).length ≤ es.length + 1 := by
  cases op with
  | add => simp [Op.apply]
  | delete => exact (List.length_filter_le _ _).trans (Nat.le_succ _)
  | sweep => exact (List.length_filter_le _ _).trans (Nat.le_succ _)

omit [DecidableEq N] in
theorem Op.Refused.mono {n : ℕ} (h : op.Refused m) (hn : m ≤ n) : op.Refused n := by
  cases op with
  | add malloc =>
      obtain ⟨size, hsize, hm⟩ := h
      exact ⟨size, hsize.trans (Nat.pow_le_pow_right (by decide) (by omega)), hm⟩
  | delete => exact h
  | sweep => exact h

/-! ## Many steps -/

theorem runAll_spec (h : Rep s es m) (hallowed : AllAllowed ops es)
    (hlimited : ∀ op ∈ ops, op.Limited) (hfuel : es.length + ops.length ≤ fuel) :
    ((∃ op ∈ ops, op.Refused (m + ops.length)) ∧ runAll fuel ops s = .error .exited) ∨
      ∃ s', runAll fuel ops s = .ok s' ∧ Rep s' (applyAll ops es) (m + ops.length) := by
  induction ops generalizing s es m with
  | nil => exact .inr ⟨s, rfl, h⟩
  | cons op ops ih =>
      rw [List.length_cons] at hfuel
      have hroom : es.length < fuel := by omega
      rcases Op.run_spec h hallowed.1 (hlimited op List.mem_cons_self) hroom with
        ⟨hrefused, hrun⟩ | ⟨s', hrun, hrep⟩
      · refine .inl ⟨⟨op, List.mem_cons_self, hrefused.mono (Nat.le_add_right _ _)⟩, ?_⟩
        rw [runAll, List.foldlM_cons, hrun]
        rfl
      · have hstep : runAll fuel (op :: ops) s = runAll fuel ops s' := by
          rw [runAll, List.foldlM_cons, hrun]
          rfl
        have hlen := op.apply_length es
        have hcount : m + 1 + ops.length = m + (op :: ops).length := by
          rw [List.length_cons]
          omega
        rw [hstep, ← hcount]
        rcases ih hrep hallowed.2 (fun o ho => hlimited o (List.mem_cons_of_mem _ ho))
          (by omega) with ⟨⟨o, ho, hrefused⟩, hruns⟩ | hdone
        · exact .inl ⟨⟨o, List.mem_cons_of_mem _ ho, hrefused⟩, hruns⟩
        · exact .inr hdone

theorem applyAll_length (ops : List (Op N)) (es : List (N × Key)) :
    (applyAll ops es).length ≤ es.length + ops.length := by
  induction ops generalizing es with
  | nil => exact Nat.le_refl _
  | cons op ops ih =>
      have hlen := op.apply_length es
      have hrest := ih (op.apply es)
      rw [List.length_cons]
      exact hrest.trans (by omega)

/-- A hash that began empty is the list that its operations make. A search finds an element with
the key if there is one, a walk visits the elements in the order they were added, and the count is
their number. The process only exits if one of the allocations failed. -/
theorem hash_refines_list (hempty : s.head = none) (hallowed : AllAllowed ops [])
    (hlimited : ∀ op ∈ ops, op.Limited) (hfuel : ops.length ≤ fuel) :
    ((∃ op ∈ ops, op.Refused ops.length) ∧ runAll fuel ops s = .error .exited) ∨
      ∃ s', runAll fuel ops s = .ok s' ∧
        (∀ key, ∃ r, hashFind fuel s' key = .ok r ∧
          (∀ x, r = some x → (x, key) ∈ applyAll ops []) ∧
          (r = none → ∀ e ∈ applyAll ops [], e.2 ≠ key)) ∧
        (∃ t, hashIter Prod.fst (sweepBody fun _ => false) fuel (s', []) =
          .ok (t, (applyAll ops []).map Prod.fst)) ∧
        hashCnt s' = (applyAll ops []).length % 2 ^ 32 := by
  have hlen := applyAll_length ops []
  rw [List.length_nil, Nat.zero_add] at hlen
  have hroom : ([] : List (N × Key)).length + ops.length ≤ fuel := by
    rwa [List.length_nil, Nat.zero_add]
  rcases runAll_spec (Rep.nil hempty 0) hallowed hlimited hroom with ⟨hrefused, hrun⟩ | ⟨s', hrun, hrep⟩
  · rw [Nat.zero_add] at hrefused
    exact .inl ⟨hrefused, hrun⟩
  · obtain ⟨t, hwalk, -⟩ := sweep_spec hrep (fun _ => false) (hlen.trans hfuel)
    exact .inr ⟨s', hrun, hashFind_spec hrep (hlen.trans hfuel), ⟨t, hwalk⟩, hashCnt_spec hrep⟩

/-- Memory that has nothing in it. -/
def blank : Hash ℕ where
  hh _ := ⟨none, none, none, none, [], 0, 0⟩
  head := none
  tbl := {}

/-- Two elements are added, the first is deleted, and one more is added. -/
def exampleOps : List (Op ℕ) :=
  let malloc : ℕ → Bool := fun n => decide (n < 1024)
  [.add malloc [97] 1, .add malloc [98] 2, .delete 1, .add malloc [99] 3,
    .sweep fun x => x = 2]

theorem exampleOps_limited : ∀ op ∈ exampleOps, op.Limited := by
  have hmalloc : ∀ n : ℕ, 2 ^ 36 ≤ n → decide (n < 1024) = false := fun n hn =>
    decide_eq_false (by omega)
  simp only [exampleOps, List.forall_mem_cons, Op.Limited]
  exact ⟨hmalloc, hmalloc, trivial, hmalloc, trivial, nofun⟩

theorem exampleOps_allowed : AllAllowed exampleOps [] := by
  simp [AllAllowed, exampleOps, Op.Allowed, Op.apply, storedKey]

theorem hash_refines_list_example :
    ∃ s', runAll 5 exampleOps blank = .ok s' ∧
      (∀ key, ∃ r, hashFind 5 s' key = .ok r ∧
        (∀ x, r = some x → (x, key) ∈ applyAll exampleOps []) ∧
        (r = none → ∀ e ∈ applyAll exampleOps [], e.2 ≠ key)) ∧
      (∃ t, hashIter Prod.fst (sweepBody fun _ => false) 5 (s', []) =
        .ok (t, (applyAll exampleOps []).map Prod.fst)) ∧
      hashCnt s' = (applyAll exampleOps []).length % 2 ^ 32 := by
  have hok : (runAll 5 exampleOps blank).toBool = true := by decide +kernel
  refine (hash_refines_list rfl exampleOps_allowed exampleOps_limited (by decide)).resolve_left
    fun hexit => ?_
  rw [hexit.2] at hok
  exact nomatch hok

/-- Whatever was done to a hash, its integrity check passes. -/
theorem hash_passes_fsck (hempty : s.head = none) (hallowed : AllAllowed ops [])
    (hlimited : ∀ op ∈ ops, op.Limited) (hfuel : ops.length ≤ fuel) {s' : Hash N}
    (hrun : runAll fuel ops s = .ok s') : hashFsck fuel s' = .ok true := by
  have hlen := applyAll_length ops []
  rw [List.length_nil, Nat.zero_add] at hlen
  have hroom : ([] : List (N × Key)).length + ops.length ≤ fuel := by
    rwa [List.length_nil, Nat.zero_add]
  rcases runAll_spec (Rep.nil hempty 0) hallowed hlimited hroom with ⟨-, hexit⟩ | ⟨t, hok, hrep⟩
  · exact nomatch hexit.symm.trans hrun
  · obtain rfl := Except.ok.inj (hok.symm.trans hrun)
    exact hashFsck_spec hrep (hlen.trans hfuel)

theorem hash_passes_fsck_example :
    ∃ s', runAll 5 exampleOps blank = .ok s' ∧ hashFsck 5 s' = .ok true := by
  cases hrun : runAll 5 exampleOps blank with
  | ok s' =>
      exact ⟨s', rfl, hash_passes_fsck rfl exampleOps_allowed exampleOps_limited (by decide) hrun⟩
  | error e =>
      have hok : (runAll 5 exampleOps blank).toBool = true := by decide +kernel
      rw [hrun] at hok
      exact nomatch hok

end Deai.UtHash
