import Deai.OutputPlans

/-!
# Errors after the first write

`configure_outputs` plans everything before it sends the first request, but the loop that turns off
outputs can still fail. It goes through all outputs of the screen, also through those that are not in
the configuration.
-/
namespace Deai.OutputWrites
open ConfigureOutputs OutputPlans

variable {order : Traversal} {server : List Write → Screen} {plan : Plan} {configs : List OutputConfig}

/-- The request that turns off a view. -/
def off (view : ℕ) : Write := .viewConfig view 0 0 0 []

/-- What the RandR extension does with these requests: a view that is turned off drives no output any
more, and nothing else changes. -/
structure Obeys (server : List Write → Screen) : Prop where
  currentView : ∀ (turned : List ℕ) (o : ℕ), (server (turned.map off)).currentView o =
    ((server []).currentView o).filter fun v => v ∉ turned
  viewConfig : ∀ (turned : List ℕ) (v : ℕ), v ∉ turned →
    (server (turned.map off)).viewConfig v = (server []).viewConfig v

/-- No request is sent by a call that raises an error. -/
def AllOrNothing (order : Traversal) (server : List Write → Screen) (configs : List OutputConfig) : Prop :=
  ∀ fuel writes e, configureOutputs fuel order server configs = (writes, .error (.raised e)) → writes = []

/-! ## The outputs of the screen -/

/-- The view of the output is outside the new screen, or not the one selected for the output. -/
def TurnsOff (plan : Plan) (screen : Screen) (o v : ℕ) : Prop :=
  screen.currentView o = some v ∧ ∃ c, screen.viewConfig v = some c ∧ plan.turnsOff o v c = .ok true

/-- The output is driven by a view that cannot be queried, or the view is inside the new screen and
none was selected for the output. -/
def Fails (plan : Plan) (screen : Screen) (o v : ℕ) : Prop :=
  screen.currentView o = some v ∧ (screen.viewConfig v = none ∨
    ∃ c e, screen.viewConfig v = some c ∧ plan.turnsOff o v c = .error e)

/-- When an output is turned off, every output after it at which the loop would fail shares its view
with an output before it that is turned off, and there is a size to set at the end. -/
def Safe (configs : List OutputConfig) (plan : Plan) (screen : Screen) : Prop :=
  ∀ before o v after, screen.outputs = before ++ o :: after → TurnsOff plan screen o v →
    (∀ b ∈ before, ∀ w, ¬ Fails plan screen b w) →
    configs ≠ [] ∧ ∀ middle o' w rest, after = middle ++ o' :: rest → Fails plan screen o' w →
      ∃ b ∈ before ++ o :: middle, TurnsOff plan screen b w

theorem TurnsOff.not_fails {screen : Screen} {o v : ℕ} (h : TurnsOff plan screen o v) (w : ℕ) :
    ¬ Fails plan screen o w := by
  rintro ⟨hview, hcase⟩
  obtain ⟨hv, c, hc, hoff⟩ := h
  obtain rfl := Option.some.inj (hv.symm.trans hview)
  rcases hcase with hnone | ⟨c', e, hc', herror⟩
  · rw [hc] at hnone
    cases hnone
  · obtain rfl := Option.some.inj (hc.symm.trans hc')
    rw [hoff] at herror
    cases herror

theorem TurnsOff.view_eq {screen : Screen} {o v w : ℕ} (h : TurnsOff plan screen o v)
    (h' : TurnsOff plan screen o w) : v = w :=
  Option.some.inj (h.1.symm.trans h'.1)

theorem extent_error {a : ℕ} {e : Stop} (h : plan.extent a = .error e) : e = .raised .nilArithmetic := by
  unfold Plan.extent at h
  split at h
  · cases h
  · cases h
    rfl

theorem turnsOff_error {o v : ℕ} {c : ViewConfig} {e : Stop} (h : plan.turnsOff o v c = .error e) :
    ∃ e', e = .raised e' := by
  unfold Plan.turnsOff at h
  by_cases hx : c.x < 0
  · rw [if_pos hx] at h
    cases h
  rw [if_neg hx] at h
  cases hwidth : plan.extent 1 with
  | error e' =>
      rw [hwidth] at h
      cases h
      exact ⟨_, extent_error hwidth⟩
  | ok width =>
      rw [hwidth] at h
      simp only [bind, Except.bind] at h
      by_cases hright : c.x + c.width > width
      · rw [if_pos hright] at h
        cases h
      rw [if_neg hright] at h
      by_cases hy : c.y < 0
      · rw [if_pos hy] at h
        cases h
      rw [if_neg hy] at h
      cases hheight : plan.extent 2 with
      | error e' =>
          rw [hheight] at h
          cases h
          exact ⟨_, extent_error hheight⟩
      | ok height =>
          rw [hheight] at h
          simp only at h
          by_cases hbottom : c.y + c.height > height
          · rw [if_pos hbottom] at h
            cases h
          rw [if_neg hbottom] at h
          cases hselected : plan.viewOf o with
          | none =>
              rw [hselected] at h
              cases h
              exact ⟨_, rfl⟩
          | some selected =>
              rw [hselected] at h
              cases h

/-! ## The loop that turns off outputs -/

/-- What the loop does with one output, when the views `turned` are already off. -/
theorem turnOff_cases (hserver : Obeys server) (plan : Plan) (turned : List ℕ) (o : ℕ) (outputs : List ℕ) :
    (turnOffOutputs server plan (o :: outputs) (turned.map off) =
        turnOffOutputs server plan outputs (turned.map off) ∧
      (∀ v, Fails plan (server []) o v → v ∈ turned) ∧ ∀ v, TurnsOff plan (server []) o v → v ∈ turned) ∨
    (∃ v, TurnsOff plan (server []) o v ∧ v ∉ turned ∧
      turnOffOutputs server plan (o :: outputs) (turned.map off) =
        turnOffOutputs server plan outputs ((turned ++ [v]).map off)) ∨
    (∃ v e, Fails plan (server []) o v ∧ v ∉ turned ∧
      turnOffOutputs server plan (o :: outputs) (turned.map off) = (turned.map off, .error (.raised e))) := by
  rw [turnOffOutputs, hserver.currentView]
  cases hview : (server []).currentView o with
  | none =>
      refine .inl ⟨rfl, fun v hv => ?_, fun v hv => ?_⟩
      · cases hview.symm.trans hv.1
      · cases hview.symm.trans hv.1
  | some v =>
      by_cases hturned : v ∈ turned
      · have hfilter : (some v).filter (fun v => decide (v ∉ turned)) = none := by
          simp [Option.filter, hturned]
        rw [hfilter]
        refine .inl ⟨rfl, fun w hw => ?_, fun w hw => ?_⟩
        · obtain rfl := Option.some.inj (hview.symm.trans hw.1)
          exact hturned
        · obtain rfl := Option.some.inj (hview.symm.trans hw.1)
          exact hturned
      · have hfilter : (some v).filter (fun v => decide (v ∉ turned)) = some v := by
          simp [Option.filter, hturned]
        rw [hfilter]
        simp only [hserver.viewConfig turned v hturned]
        cases hconfig : (server []).viewConfig v with
        | none => exact .inr (.inr ⟨v, .nilCompare, ⟨hview, .inl hconfig⟩, hturned, rfl⟩)
        | some c =>
            cases hoff : plan.turnsOff o v c with
            | error e =>
                obtain ⟨e, rfl⟩ := turnsOff_error hoff
                exact .inr (.inr ⟨v, e, ⟨hview, .inr ⟨c, _, hconfig, hoff⟩⟩, hturned, by simp [hoff]⟩)
            | ok turns =>
                cases turns with
                | true =>
                    refine .inr (.inl ⟨v, ⟨hview, c, hconfig, hoff⟩, hturned, ?_⟩)
                    simp [hoff, off]
                | false =>
                    refine .inl ⟨by simp [hoff], fun w hw => ?_, fun w hw => ?_⟩
                    · obtain ⟨hw, hcase⟩ := hw
                      obtain rfl := Option.some.inj (hview.symm.trans hw)
                      rcases hcase with hnone | ⟨c', e, hc', herror⟩
                      · rw [hconfig] at hnone
                        cases hnone
                      · obtain rfl := Option.some.inj (hconfig.symm.trans hc')
                        rw [hoff] at herror
                        cases herror
                    · obtain ⟨hw, c', hc', htrue⟩ := hw
                      obtain rfl := Option.some.inj (hview.symm.trans hw)
                      obtain rfl := Option.some.inj (hconfig.symm.trans hc')
                      rw [hoff] at htrue
                      cases htrue

/-- Outputs at which the loop cannot fail are passed, and their views are off where they have to be. -/
theorem turnOff_before (hserver : Obeys server) {before : List ℕ}
    (hbefore : ∀ b ∈ before, ∀ w, ¬ Fails plan (server []) b w) (rest turned : List ℕ) :
    ∃ turned' : List ℕ, turnOffOutputs server plan (before ++ rest) (turned.map off) =
        turnOffOutputs server plan rest (turned'.map off) ∧
      ∀ v, v ∈ turned' ↔ v ∈ turned ∨ ∃ b ∈ before, TurnsOff plan (server []) b v := by
  induction before generalizing turned with
  | nil => exact ⟨turned, rfl, fun v => by simp⟩
  | cons o before ih =>
      have htail : ∀ b ∈ before, ∀ w, ¬ Fails plan (server []) b w := fun b hb =>
        hbefore b (List.mem_cons_of_mem o hb)
      rcases turnOff_cases hserver plan turned o (before ++ rest) with
        ⟨hstep, -, hoff⟩ | ⟨v, hv, -, hstep⟩ | ⟨v, e, hfails, -⟩
      · obtain ⟨turned', hrun, hmem⟩ := ih htail turned
        refine ⟨turned', hstep.trans hrun, fun w => (hmem w).trans ⟨fun h => ?_, fun h => ?_⟩⟩
        · exact h.imp_right fun ⟨b, hb, hb'⟩ => ⟨b, List.mem_cons_of_mem o hb, hb'⟩
        · rcases h with h | ⟨b, hb, hb'⟩
          · exact .inl h
          · rcases List.mem_cons.mp hb with rfl | hb
            · exact .inl (hoff w hb')
            · exact .inr ⟨b, hb, hb'⟩
      · obtain ⟨turned', hrun, hmem⟩ := ih htail (turned ++ [v])
        refine ⟨turned', hstep.trans hrun, fun w => (hmem w).trans ⟨fun h => ?_, fun h => ?_⟩⟩
        · rcases h with h | ⟨b, hb, hb'⟩
          · rcases List.mem_append.mp h with h | h
            · exact .inl h
            · obtain rfl := List.mem_singleton.mp h
              exact .inr ⟨o, List.mem_cons_self, hv⟩
          · exact .inr ⟨b, List.mem_cons_of_mem o hb, hb'⟩
        · rcases h with h | ⟨b, hb, hb'⟩
          · exact .inl (List.mem_append_left _ h)
          · rcases List.mem_cons.mp hb with rfl | hb
            · exact .inl (List.mem_append_right _ (by rw [hv.view_eq hb']; exact List.mem_singleton_self w))
            · exact .inr ⟨b, hb, hb'⟩
      · exact absurd hfails (hbefore o List.mem_cons_self v)

/-- The loop passes every output at which it would fail, because the view is off when it comes to it. -/
def Covered (plan : Plan) (screen : Screen) (turned outputs : List ℕ) : Prop :=
  ∀ middle o w rest, outputs = middle ++ o :: rest → Fails plan screen o w →
    w ∈ turned ∨ ∃ b ∈ middle, TurnsOff plan screen b w

theorem covered_cons {screen : Screen} {turned turned' : List ℕ} {o : ℕ} {outputs : List ℕ}
    (hfails : ∀ v, Fails plan screen o v → v ∈ turned)
    (hmem : ∀ v, v ∈ turned' ↔ v ∈ turned ∨ TurnsOff plan screen o v) :
    Covered plan screen turned (o :: outputs) ↔ Covered plan screen turned' outputs := by
  constructor
  · intro h middle o' w rest hsplit hw
    rcases h (o :: middle) o' w rest (by rw [hsplit]; rfl) hw with hw | ⟨b, hb, hb'⟩
    · exact .inl ((hmem w).mpr (.inl hw))
    · rcases List.mem_cons.mp hb with rfl | hb
      · exact .inl ((hmem w).mpr (.inr hb'))
      · exact .inr ⟨b, hb, hb'⟩
  · intro h middle o' w rest hsplit hw
    cases middle with
    | nil =>
        obtain ⟨rfl, rfl⟩ := List.cons.inj hsplit
        exact .inl (hfails w hw)
    | cons b middle =>
        obtain ⟨rfl, htail⟩ := List.cons.inj hsplit
        rcases h middle o' w rest htail hw with hw | ⟨b, hb, hb'⟩
        · exact ((hmem w).mp hw).imp_right fun ho => ⟨o, List.mem_cons_self, ho⟩
        · exact .inr ⟨b, List.mem_cons_of_mem o hb, hb'⟩

/-- The loop ends well if and only if all failures are covered, and it keeps what it has written. -/
theorem turnOff_result (plan : Plan) (hserver : Obeys server) (outputs turned : List ℕ) :
    ∃ (more : List ℕ) (result : Except Stop Unit),
      turnOffOutputs server plan outputs (turned.map off) = ((turned ++ more).map off, result) ∧
      (result = .ok () ∧ Covered plan (server []) turned outputs ∨
        (∃ e, result = .error (.raised e)) ∧ ¬ Covered plan (server []) turned outputs) := by
  induction outputs generalizing turned with
  | nil =>
      refine ⟨[], .ok (), by rw [List.append_nil]; rfl, .inl ⟨rfl, fun middle o w rest hsplit => ?_⟩⟩
      exact absurd hsplit.symm (List.append_ne_nil_of_right_ne_nil _ (List.cons_ne_nil _ _))
  | cons o outputs ih =>
      rcases turnOff_cases hserver plan turned o outputs with
        ⟨hstep, hfails, hoff⟩ | ⟨v, hv, -, hstep⟩ | ⟨v, e, hfails, hnot, hstep⟩
      · obtain ⟨more, result, hrun, hcase⟩ := ih turned
        have hiff : Covered plan (server []) turned (o :: outputs) ↔ Covered plan (server []) turned outputs :=
          covered_cons hfails fun w => ⟨.inl, fun h => h.elim id (hoff w)⟩
        refine ⟨more, result, hstep.trans hrun, ?_⟩
        rw [hiff]
        exact hcase
      · obtain ⟨more, result, hrun, hcase⟩ := ih (turned ++ [v])
        have hiff : Covered plan (server []) turned (o :: outputs) ↔
            Covered plan (server []) (turned ++ [v]) outputs := by
          refine covered_cons (fun w hw => absurd hw (hv.not_fails w)) fun w => ?_
          rw [List.mem_append, List.mem_singleton]
          exact or_congr_right ⟨fun h => h ▸ hv, fun h => h.view_eq hv⟩
        refine ⟨v :: more, result, ?_, ?_⟩
        · rw [hstep, hrun, List.append_assoc]
          rfl
        · rw [hiff]
          exact hcase
      · refine ⟨[], .error (.raised e), by rw [List.append_nil]; exact hstep, .inr ⟨⟨e, rfl⟩, fun h => ?_⟩⟩
        rcases h [] o v outputs rfl hfails with hmem | ⟨b, hb, -⟩
        · exact hnot hmem
        · cases hb

/-- Nothing is written when the loop fails before it comes to an output that it would turn off. -/
theorem turnOff_nothing (hserver : Obeys server) {outputs : List ℕ}
    (h : ∀ before o v after, outputs = before ++ o :: after → TurnsOff plan (server []) o v →
      ∃ b ∈ before, ∃ w, Fails plan (server []) b w) :
    (turnOffOutputs server plan outputs []).1 = [] := by
  induction outputs with
  | nil => rfl
  | cons o outputs ih =>
      rcases turnOff_cases hserver plan [] o outputs with
        ⟨hstep, hfails, -⟩ | ⟨v, hv, -⟩ | ⟨v, e, -, -, hstep⟩
      · rw [List.map_nil] at hstep
        rw [hstep]
        refine ih fun before o' v after hsplit hv => ?_
        obtain ⟨b, hb, w, hw⟩ := h (o :: before) o' v after (by rw [hsplit]; rfl) hv
        rcases List.mem_cons.mp hb with rfl | hb
        · exact absurd (hfails w hw) (List.not_mem_nil)
        · exact ⟨b, hb, w, hw⟩
      · obtain ⟨b, hb, -⟩ := h [] o v outputs rfl hv
        cases hb
      · rw [List.map_nil] at hstep
        rw [hstep]

/-! ## The size of the screen -/

theorem screenSize_ok {screen : Screen} {fuel : ℕ}
    (h : planOutputs fuel order screen configs = .ok plan) (hconfigs : configs ≠ []) :
    ∃ size, screenSize plan = .ok size := by
  have hpos : 0 < configs.length := List.length_pos_iff.mpr hconfigs
  have hextent : ∀ a ∈ [1, 2, 3, 4], ∃ x, plan.extent a = .ok x := by
    intro a ha
    obtain ⟨low, high, hlow, hhigh, -⟩ := (plan_bounding h ha).set hpos
    exact ⟨high - low, by rw [Plan.extent, hlow, hhigh]⟩
  obtain ⟨width, hwidth⟩ := hextent 1 (by decide)
  obtain ⟨height, hheight⟩ := hextent 2 (by decide)
  obtain ⟨mmWidth, hmmWidth⟩ := hextent 3 (by decide)
  obtain ⟨mmHeight, hmmHeight⟩ := hextent 4 (by decide)
  exact ⟨.screenSize width height mmWidth mmHeight, by
    rw [screenSize, hwidth, hheight, hmmWidth, hmmHeight]; rfl⟩

/-- Without a configuration there is no size. -/
theorem screenSize_error {screen : Screen} {fuel : ℕ}
    (h : planOutputs fuel order screen [] = .ok plan) : screenSize plan = .error (.raised .nilArithmetic) := by
  obtain ⟨hmin, hmax⟩ := (plan_bounding h (show 1 ∈ [1, 2, 3, 4] by decide)).unset rfl
  have hextent : plan.extent 1 = .error (.raised .nilArithmetic) := by rw [Plan.extent, hmin, hmax]
  rw [screenSize, hextent]
  rfl

/-! ## All or nothing -/

/-- What the first loop with writes leaves, once it has turned off a view. -/
theorem turnOff_written (hserver : Obeys server) {before after : List ℕ} {o v : ℕ}
    (houtputs : (server []).outputs = before ++ o :: after) (ho : TurnsOff plan (server []) o v)
    (hbefore : ∀ b ∈ before, ∀ w, ¬ Fails plan (server []) b w) :
    ∃ writes result, writes ≠ [] ∧
      turnOffOutputs server plan (server []).outputs [] = (writes, result) ∧
      (result = .ok () ∧ (∀ middle o' w rest, after = middle ++ o' :: rest → Fails plan (server []) o' w →
          ∃ b ∈ before ++ o :: middle, TurnsOff plan (server []) b w) ∨
        (∃ e, result = .error (.raised e)) ∧
          ¬ ∀ middle o' w rest, after = middle ++ o' :: rest → Fails plan (server []) o' w →
            ∃ b ∈ before ++ o :: middle, TurnsOff plan (server []) b w) := by
  have hpassed : ∀ b ∈ before ++ [o], ∀ w, ¬ Fails plan (server []) b w := by
    intro b hb w
    rcases List.mem_append.mp hb with hb | hb
    · exact hbefore b hb w
    · rw [List.mem_singleton.mp hb]
      exact ho.not_fails w
  obtain ⟨turned, hrun, hmem⟩ := turnOff_before hserver hpassed after []
  obtain ⟨more, result, hrest, hcase⟩ := turnOff_result plan hserver after turned
  have hsplit : before ++ o :: after = (before ++ [o]) ++ after := by simp
  have hturned : v ∈ turned := (hmem v).mpr (.inr ⟨o, by simp, ho⟩)
  have hcovered : Covered plan (server []) turned after ↔
      ∀ middle o' w rest, after = middle ++ o' :: rest → Fails plan (server []) o' w →
        ∃ b ∈ before ++ o :: middle, TurnsOff plan (server []) b w := by
    refine forall_congr' fun middle => forall_congr' fun o' => forall_congr' fun w => forall_congr' fun rest =>
      forall_congr' fun _ => forall_congr' fun _ => ?_
    have hlist : before ++ o :: middle = (before ++ [o]) ++ middle := by simp
    rw [hmem w, hlist]
    simp only [List.mem_append, List.not_mem_nil, false_or]
    constructor
    · rintro (⟨b, hb, hb'⟩ | ⟨b, hb, hb'⟩)
      · exact ⟨b, .inl hb, hb'⟩
      · exact ⟨b, .inr hb, hb'⟩
    · rintro ⟨b, hb | hb, hb'⟩
      · exact .inl ⟨b, hb, hb'⟩
      · exact .inr ⟨b, hb, hb'⟩
  refine ⟨(turned ++ more).map off, result, ?_, ?_, ?_⟩
  · intro hnil
    rw [List.map_eq_nil_iff, List.append_eq_nil_iff] at hnil
    rw [hnil.1] at hturned
    cases hturned
  · rw [houtputs, hsplit]
    exact hrun.trans hrest
  · rw [← hcovered]
    exact hcase

/-- An error leaves everything as it was, if and only if no output at which the loop fails comes after
one that is turned off. -/
theorem configure_all_or_nothing (hserver : Obeys server) :
    AllOrNothing order server configs ↔
      ∀ fuel plan, planOutputs fuel order (server []) configs = .ok plan → Safe configs plan (server []) := by
  constructor
  · intro h fuel plan hplan before o v after houtputs ho hbefore
    obtain ⟨writes, result, hwrites, hrun, hcase⟩ := turnOff_written hserver houtputs ho hbefore
    have hne : (server []).outputs ≠ [] := by
      rw [houtputs]
      exact List.append_ne_nil_of_right_ne_nil _ (List.cons_ne_nil _ _)
    have hall := h fuel writes
    rw [configureOutputs, hplan] at hall
    simp only [if_neg hne, hrun] at hall
    rcases hcase with ⟨rfl, hcovered⟩ | ⟨⟨e, rfl⟩, -⟩
    · refine ⟨?_, hcovered⟩
      rintro rfl
      simp only [screenSize_error hplan] at hall
      exact hwrites (hall _ rfl)
    · exact absurd (hall e rfl) hwrites
  · intro h fuel writes e hcall
    rw [configureOutputs] at hcall
    cases hplan : planOutputs fuel order (server []) configs with
    | error e' =>
        rw [hplan] at hcall
        exact (Prod.mk.inj hcall).1.symm
    | ok plan =>
        rw [hplan] at hcall
        simp only at hcall
        split_ifs at hcall with hnone
        · exact (Prod.mk.inj hcall).1.symm
        · by_cases hturns : ∃ before o v after, (server []).outputs = before ++ o :: after ∧
              TurnsOff plan (server []) o v ∧ ∀ b ∈ before, ∀ w, ¬ Fails plan (server []) b w
          · obtain ⟨before, o, v, after, houtputs, ho, hbefore⟩ := hturns
            obtain ⟨hconfigs, hcovered⟩ := h fuel plan hplan before o v after houtputs ho hbefore
            obtain ⟨size, hsize⟩ := screenSize_ok hplan hconfigs
            obtain ⟨writes', result, -, hrun, hcase⟩ := turnOff_written hserver houtputs ho hbefore
            rcases hcase with ⟨rfl, -⟩ | ⟨-, hnot⟩
            · rw [hrun, hsize] at hcall
              cases (Prod.mk.inj hcall).2
            · exact absurd hcovered hnot
          · have hnothing : (turnOffOutputs server plan (server []).outputs []).1 = [] := by
              refine turnOff_nothing hserver fun before o v after houtputs ho => ?_
              by_contra hno
              exact hturns ⟨before, o, v, after, houtputs, ho, fun b hb w hw => hno ⟨b, hb, w, hw⟩⟩
            rcases hrun : turnOffOutputs server plan (server []).outputs [] with ⟨writes', result⟩
            rw [hrun] at hnothing hcall
            simp only at hnothing
            cases result with
            | error e' => exact (Prod.mk.inj hcall).1 ▸ hnothing
            | ok u =>
                simp only at hcall
                cases hsize : screenSize plan with
                | error e' =>
                    rw [hsize] at hcall
                    exact (Prod.mk.inj hcall).1 ▸ hnothing
                | ok size =>
                    rw [hsize] at hcall
                    cases (Prod.mk.inj hcall).2

/-! ## A screen with three outputs -/

/-- The outputs 1 and 2 are driven by the views 10 and 11. The view 10 is outside of a screen of 100
times 100 pixels. -/
def threeOutputs (outputs : List ℕ) (writes : List Write) : Screen where
  monitors := [⟨"A", none, none, none, 1⟩, ⟨"B", none, none, none, 2⟩, ⟨"C", none, none, none, 3⟩]
  info _ := some ⟨"C", [⟨1, 100, 100, false, false⟩], 1, 10, 10⟩
  views _ := [10]
  allViews := [10, 11]
  outputs := outputs
  currentView o := (if o = 1 then some 10 else if o = 2 then some 11 else none).filter fun v =>
    off v ∉ writes
  viewConfig v := if v = 10 then some ⟨200, 0, 100, 100⟩ else some ⟨0, 0, 50, 50⟩

theorem obeys_threeOutputs (outputs : List ℕ) : Obeys (threeOutputs outputs) := by
  have hoff : ∀ (turned : List ℕ) v, off v ∈ turned.map off ↔ v ∈ turned := fun turned v =>
    List.mem_map_of_injective fun a b h => by
      simp only [off, Write.viewConfig.injEq] at h
      exact h.1
  refine ⟨fun turned o => ?_, fun turned v _ => rfl⟩
  simp only [threeOutputs, hoff, List.not_mem_nil, not_false_eq_true, decide_true]
  cases (if o = 1 then some 10 else if o = 2 then some 11 else none : Option ℕ) with
  | none => rfl
  | some v => rfl

theorem configure_all_or_nothing_one :
    Obeys (threeOutputs [1]) ∧ AllOrNothing leftToRight (threeOutputs [1]) [onlyOutput "A"] := by
  refine ⟨obeys_threeOutputs [1], (configure_all_or_nothing (obeys_threeOutputs [1])).mpr ?_⟩
  intro fuel plan _ before o v after houtputs _ _
  refine ⟨List.cons_ne_nil _ _, fun middle o' w rest hafter => ?_⟩
  have hlength := congrArg List.length houtputs
  rw [hafter] at hlength
  simp [threeOutputs] at hlength
  omega

/-- The output 1 is turned off, and the output 2, which is not in the configuration, makes the call
fail. -/
theorem output_turned_off_before_error :
    Obeys (threeOutputs [1, 2, 3]) ∧
      configureOutputs 9 leftToRight (threeOutputs [1, 2, 3]) [onlyOutput "C"] =
        ([off 10], .error (.raised .nilIndex)) ∧
      ¬ AllOrNothing leftToRight (threeOutputs [1, 2, 3]) [onlyOutput "C"] := by
  have hcall : configureOutputs 9 leftToRight (threeOutputs [1, 2, 3]) [onlyOutput "C"] =
      ([off 10], .error (.raised .nilIndex)) := by decide
  exact ⟨obeys_threeOutputs _, hcall, fun h => List.cons_ne_nil _ _ (h _ _ _ hcall)⟩

end Deai.OutputWrites
