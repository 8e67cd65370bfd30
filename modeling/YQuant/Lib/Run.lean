/-
# Runs of a fallible step function

A component that handles one request after another is a step function
`step : σ → ι → Except ε σ`; its run over a list of inputs is `List.foldlM step`.  Eleven rules
cover the inductions over such runs:

* `foldlM_ok_of_sim`: a run simulates a reference that cannot fail, as long as every input is
  admissible where it arrives, and emits what the reference emits;
* `foldlM_inv`: an invariant of the successful steps holds at the end of a successful run;
* `foldlM_append_ok`: a successful run has a state at every prefix;
* `foldlM_emitted_inv`: an invariant that relates the state to what the run has emitted, and
  `EachStep.emitted_inv`, where each step meets a condition in the state it is taken in;
* `always_iff_eachStep`: what a step needs for a property to survive it is what a run needs for the
  property to hold throughout;
* `EachStep.refinement`: a run refines a run of another machine that may stand still meanwhile;
* `EachStep.lifts`: a run whose steps are those of another machine is a run of it;
* `EachTry.through_iff`: what a step needs to succeed is what each step a run tries needs for the
  run to go through;
* `Leads.replicate`: a step that makes progress leads to its goal when it is repeated;
* `foldlM_eq_of_budget`: steps that fail only beyond a budget make a run that fails only there.

`AlongRun` is the admissibility of a list of inputs, each judged in the reference state it
arrives in; `outputs` is what a reference emits over a run.

Nothing is said of what a state, an input or an error is.  The rules differ in what they ask of a
failing step: some are about runs that return, some about what keeps a run from failing, and
`through_iff` about both at once.  Which one a result needs follows from its shape: a property of
every state that is reached goes by `always_iff_eachStep` or an invariant, a comparison with
another machine by a simulation, and a bound on what a run may consume by a budget.
-/
import Mathlib.Data.List.Basic
import Mathlib.Data.List.Induction
import Mathlib.Tactic.Common

namespace Run

variable {σ τ ι ε ω ω' : Type}

/-! ## 1. Inputs judged where they arrive -/

/-- Every input of the list is admissible in the state the reference has reached. -/
def AlongRun (ref : τ → ι → τ) (pre : τ → ι → Prop) : τ → List ι → Prop
  | _, [] => True
  | t, i :: is => pre t i ∧ AlongRun ref pre (ref t i) is

@[simp] theorem alongRun_nil {ref : τ → ι → τ} {pre : τ → ι → Prop} {t : τ} :
    AlongRun ref pre t [] := trivial

theorem alongRun_cons {ref : τ → ι → τ} {pre : τ → ι → Prop} {t : τ} {i : ι} {is : List ι} :
    AlongRun ref pre t (i :: is) ↔ pre t i ∧ AlongRun ref pre (ref t i) is := Iff.rfl

instance decidableAlongRun {ref : τ → ι → τ} {pre : τ → ι → Prop} [∀ t i, Decidable (pre t i)] :
    ∀ (t : τ) (is : List ι), Decidable (AlongRun ref pre t is)
  | _, [] => isTrue trivial
  | t, i :: is => @instDecidableAnd _ _ _ (decidableAlongRun (ref t i) is)

theorem alongRun_append {ref : τ → ι → τ} {pre : τ → ι → Prop} {is js : List ι} :
    ∀ {t : τ}, AlongRun ref pre t (is ++ js) ↔
      AlongRun ref pre t is ∧ AlongRun ref pre (is.foldl ref t) js := by
  induction is with
  | nil => intro t; simp
  | cons i is ih => intro t; simp [alongRun_cons, ih, and_assoc]

theorem AlongRun.mono {ref : τ → ι → τ} {pre pre' : τ → ι → Prop}
    (hpre : ∀ t i, pre t i → pre' t i) :
    ∀ {is : List ι} {t : τ}, AlongRun ref pre t is → AlongRun ref pre' t is
  | [], _, _ => trivial
  | _ :: _, _, h => ⟨hpre _ _ h.1, AlongRun.mono hpre h.2⟩

theorem AlongRun.of_forall {ref : τ → ι → τ} {pre : τ → ι → Prop} :
    ∀ {is : List ι} {t : τ}, (∀ i ∈ is, ∀ t, pre t i) → AlongRun ref pre t is
  | [], _, _ => trivial
  | i :: _, t, h =>
    ⟨h i List.mem_cons_self t, AlongRun.of_forall fun j hj => h j (List.mem_cons_of_mem i hj)⟩

/-- Under an invariant of the reference, a condition can be exchanged for a weaker one. -/
theorem AlongRun.mono_inv {ref : τ → ι → τ} {pre pre' : τ → ι → Prop} {I : τ → Prop}
    (hstep : ∀ t i, I t → pre t i → I (ref t i)) (hpre : ∀ t i, I t → pre t i → pre' t i) :
    ∀ {is : List ι} {t : τ}, I t → AlongRun ref pre t is → AlongRun ref pre' t is
  | [], _, _, _ => trivial
  | i :: _, t, h, ha =>
    ⟨hpre t i h ha.1, AlongRun.mono_inv hstep hpre (hstep t i h ha.1) ha.2⟩

/-- An invariant of the reference holds wherever admissible inputs lead. -/
theorem AlongRun.inv {ref : τ → ι → τ} {pre : τ → ι → Prop} {I : τ → Prop}
    (hstep : ∀ t i, I t → pre t i → I (ref t i)) :
    ∀ {is : List ι} {t : τ}, I t → AlongRun ref pre t is → I (is.foldl ref t)
  | [], _, h, _ => h
  | i :: is, t, h, ha => by
    rw [List.foldl_cons]
    exact AlongRun.inv hstep (hstep t i h ha.1) ha.2

/-! ## 2. What a reference emits -/

/-- What the reference emits over a list of inputs. -/
def outputs (ref : τ → ι → τ) (out : τ → ι → List ω) : τ → List ι → List ω
  | _, [] => []
  | t, i :: is => out t i ++ outputs ref out (ref t i) is

@[simp] theorem outputs_nil {ref : τ → ι → τ} {out : τ → ι → List ω} {t : τ} :
    outputs ref out t [] = [] := rfl

@[simp] theorem outputs_cons {ref : τ → ι → τ} {out : τ → ι → List ω} {t : τ} {i : ι}
    {is : List ι} : outputs ref out t (i :: is) = out t i ++ outputs ref out (ref t i) is := rfl

theorem outputs_append {ref : τ → ι → τ} {out : τ → ι → List ω} {is js : List ι} :
    ∀ {t : τ}, outputs ref out t (is ++ js) =
      outputs ref out t is ++ outputs ref out (is.foldl ref t) js := by
  induction is with
  | nil => intro t; simp
  | cons i is ih => intro t; simp [ih]

/-- **A homomorphism of references** carries what one run emits to what the other does. -/
theorem outputs_map {τ' ι' : Type} {ref : τ → ι → τ} {ref' : τ' → ι' → τ'} {out : τ → ι → List ω}
    {out' : τ' → ι' → List ω'} {f : τ → τ'} {g : ι → ι'} {h : ω → ω'} {pre : ι → Prop}
    (hstep : ∀ t i, pre i → ref' (f t) (g i) = f (ref t i))
    (hout : ∀ t i, pre i → out' (f t) (g i) = (out t i).map h) {is : List ι} :
    ∀ {t : τ}, (∀ i ∈ is, pre i) →
      outputs ref' out' (f t) (is.map g) = (outputs ref out t is).map h := by
  induction is with
  | nil => exact fun _ => rfl
  | cons i is ih =>
    intro t hpre
    have hi := hpre i List.mem_cons_self
    rw [List.map_cons, outputs_cons, outputs_cons, List.map_append, hstep t i hi, hout t i hi,
      ih fun j hj => hpre j (List.mem_cons_of_mem i hj)]

/-- And what is admissible in one to what is admissible in the other. -/
theorem AlongRun.map {τ' ι' : Type} {ref : τ → ι → τ} {ref' : τ' → ι' → τ'} {f : τ → τ'}
    {g : ι → ι'} {pre : τ → ι → Prop} {pre' : τ' → ι' → Prop}
    (hstep : ∀ t i, pre t i → ref' (f t) (g i) = f (ref t i))
    (hpre : ∀ t i, pre t i → pre' (f t) (g i)) {is : List ι} :
    ∀ {t : τ}, AlongRun ref pre t is → AlongRun ref' pre' (f t) (is.map g) := by
  induction is with
  | nil => exact fun _ => trivial
  | cons i is ih =>
    rintro t ⟨hi, his⟩
    refine ⟨hpre t i hi, ?_⟩
    rw [hstep t i hi]
    exact ih his

/-- **What every step emits under an invariant**, a run emits. -/
theorem AlongRun.forall_outputs {ref : τ → ι → τ} {out : τ → ι → List ω} {pre : τ → ι → Prop}
    {I : τ → Prop} {P : ω → Prop} (hinv : ∀ t i, I t → pre t i → I (ref t i))
    (hout : ∀ t i, I t → pre t i → ∀ w ∈ out t i, P w) :
    ∀ {is : List ι} {t : τ}, I t → AlongRun ref pre t is → ∀ w ∈ outputs ref out t is, P w
  | [], _, _, _, _, hw => absurd hw List.not_mem_nil
  | i :: _, t, hI, hpre, w, hw => by
    rcases List.mem_append.mp hw with hw | hw
    · exact hout t i hI hpre.1 w hw
    · exact AlongRun.forall_outputs hinv hout (hinv t i hI hpre.1) hpre.2 w hw

/-- An output of a run is one of a single step. -/
theorem outputs_eq_append_cons {ref : τ → ι → τ} {out : τ → ι → List ω} {w : ω} {vs' : List ω} :
    ∀ {is : List ι} {t : τ} {vs : List ω}, outputs ref out t is = vs ++ w :: vs' →
      ∃ js i ks us us', is = js ++ i :: ks ∧ out (js.foldl ref t) i = us ++ w :: us' ∧
        vs = outputs ref out t js ++ us
  | [], t, vs, h => by
    rw [outputs_nil] at h
    exact absurd h.symm (List.append_ne_nil_of_right_ne_nil _ (List.cons_ne_nil _ _))
  | i :: is, t, vs, h => by
    -- the steps behind the first one
    have hrest : ∀ vs₂, vs = out t i ++ vs₂ → outputs ref out (ref t i) is = vs₂ ++ w :: vs' →
        ∃ js i₂ ks us us', i :: is = js ++ i₂ :: ks ∧ out (js.foldl ref t) i₂ = us ++ w :: us' ∧
          vs = outputs ref out t js ++ us := by
      intro vs₂ hvs h₂
      obtain ⟨js, i₂, ks, us, us', his, hout, rfl⟩ := outputs_eq_append_cons h₂
      refine ⟨i :: js, i₂, ks, us, us', congrArg (i :: ·) his, hout, ?_⟩
      rw [hvs, outputs_cons, List.append_assoc]
    rw [outputs_cons] at h
    rcases List.append_eq_append_iff.mp h with ⟨vs₂, hvs, h₂⟩ | ⟨us', hout, h₂⟩
    · exact hrest vs₂ hvs h₂
    · cases us' with
      | nil =>
        rw [List.append_nil] at hout
        exact hrest [] (by rw [hout, List.append_nil]) h₂.symm
      | cons w' us' =>
        obtain ⟨rfl, -⟩ := List.cons.inj h₂
        exact ⟨[], i, is, vs, us', rfl, hout, rfl⟩

/-! ## 3. Runs -/

theorem foldlM_cons_ok {step : σ → ι → Except ε σ} {s s' : σ} {i : ι} {is : List ι} :
    (i :: is).foldlM step s = .ok s' ↔ ∃ m, step s i = .ok m ∧ is.foldlM step m = .ok s' := by
  rw [List.foldlM_cons]
  cases h : step s i with
  | error e => simp [bind, Except.bind]
  | ok m => simp [bind, Except.bind]

theorem foldlM_append_ok {step : σ → ι → Except ε σ} {s s' : σ} {is js : List ι} :
    (is ++ js).foldlM step s = .ok s' ↔
      ∃ m, is.foldlM step s = .ok m ∧ js.foldlM step m = .ok s' := by
  rw [List.foldlM_append]
  cases h : is.foldlM step s with
  | error e => simp [bind, Except.bind]
  | ok m => simp [bind, Except.bind]

/-- A map of calls that all succeed. -/
theorem mapM_ok {α β : Type} {f : α → Except ε β} {g : α → β} {l : List α} :
    (∀ a ∈ l, f a = .ok (g a)) → l.mapM f = .ok (l.map g) := by
  induction l with
  | nil => exact fun _ => rfl
  | cons a l ih =>
    intro h
    rw [List.mapM_cons, h a List.mem_cons_self, ih fun b hb => h b (List.mem_cons_of_mem _ hb)]
    rfl

/-- What every call returns, the map returns. -/
theorem forall_of_mapM_ok {α β : Type} {f : α → Except ε β} {P : β → Prop} {l : List α} :
    ∀ {bs : List β}, l.mapM f = .ok bs → (∀ a ∈ l, ∀ b, f a = .ok b → P b) → ∀ b ∈ bs, P b := by
  induction l with
  | nil =>
    intro bs h _ b hb
    obtain rfl : [] = bs := Except.ok.inj h
    exact absurd hb List.not_mem_nil
  | cons a l ih =>
    intro bs h hf b hb
    rw [List.mapM_cons] at h
    cases ha : f a with
    | error e =>
      rw [ha] at h
      cases h
    | ok c =>
      cases hl : l.mapM f with
      | error e =>
        rw [ha, hl] at h
        cases h
      | ok cs =>
        rw [ha, hl] at h
        obtain rfl : c :: cs = bs := Except.ok.inj h
        rcases List.mem_cons.mp hb with rfl | hb
        · exact hf a List.mem_cons_self b ha
        · exact ih hl (fun a' ha' => hf a' (List.mem_cons_of_mem a ha')) b hb

/-- **A run simulates its reference.**  `R` is the simulation relation, `pre` is what an input
has to satisfy in the reference state it arrives in, and `E` relates two states of a run to what
was emitted on two channels in between. -/
theorem foldlM_ok_of_sim {step : σ → ι → Except ε σ} {ref : τ → ι → τ} {R : σ → τ → Prop}
    {pre : τ → ι → Prop} {out : τ → ι → List ω} {out' : τ → ι → List ω'}
    {E : σ → σ → List ω → List ω' → Prop} (hrefl : ∀ s, E s s [] [])
    (htrans : ∀ {s m s' a b a' b'}, E s m a a' → E m s' b b' → E s s' (a ++ b) (a' ++ b'))
    (hstep : ∀ s t i, R s t → pre t i →
      ∃ s', step s i = .ok s' ∧ R s' (ref t i) ∧ E s s' (out t i) (out' t i)) :
    ∀ {is : List ι} {s : σ} {t : τ}, R s t → AlongRun ref pre t is →
      ∃ s', is.foldlM step s = .ok s' ∧ R s' (is.foldl ref t) ∧
        E s s' (outputs ref out t is) (outputs ref out' t is)
  | [], s, _, h, _ => ⟨s, rfl, h, hrefl s⟩
  | i :: is, s, t, h, ha => by
    obtain ⟨m, hm, hR, hE⟩ := hstep s t i h ha.1
    obtain ⟨s', hs', hR', hE'⟩ := foldlM_ok_of_sim hrefl htrans hstep hR ha.2
    exact ⟨s', foldlM_cons_ok.mpr ⟨m, hm, hs'⟩, hR', htrans hE hE'⟩

/-- **An invariant of the successful steps.** -/
theorem foldlM_inv {step : σ → ι → Except ε σ} {I : σ → Prop} {pre : ι → Prop}
    (hstep : ∀ s s' i, I s → pre i → step s i = .ok s' → I s') :
    ∀ {is : List ι} {s s' : σ}, I s → (∀ i ∈ is, pre i) → is.foldlM step s = .ok s' → I s'
  | [], s, s', h, _, hrun => by
    have : s = s' := by simpa [pure, Except.pure] using hrun
    exact this ▸ h
  | i :: is, s, s', h, hpre, hrun => by
    obtain ⟨m, hm, hrest⟩ := foldlM_cons_ok.mp hrun
    exact foldlM_inv hstep (hstep s m i h (hpre i (by simp)) hm)
      (fun j hj => hpre j (by simp [hj])) hrest

/-- **An invariant that knows the inputs so far**, and by which every step succeeds. -/
theorem exists_foldlM_of_history {step : σ → ι → Except ε σ} {I : List ι → σ → Prop}
    {pre : ι → Prop} {s₀ : σ} (hinit : I [] s₀)
    (hstep : ∀ is i s, I is s → pre i → ∃ s', step s i = .ok s' ∧ I (is ++ [i]) s') (is : List ι)
    (hpre : ∀ i ∈ is, pre i) : ∃ s, is.foldlM step s₀ = .ok s ∧ I is s := by
  induction is using List.reverseRecOn with
  | nil => exact ⟨s₀, rfl, hinit⟩
  | append_singleton is i ih =>
    obtain ⟨s, hrun, hs⟩ := ih fun j hj => hpre j (List.mem_append_left [i] hj)
    obtain ⟨s', hs', hI⟩ := hstep is i s hs (hpre i (by simp))
    exact ⟨s', foldlM_append_ok.mpr ⟨s, hrun, foldlM_cons_ok.mpr ⟨s', hs', rfl⟩⟩, hI⟩

/-! ## 4. What a run emits -/

/-- What the steps of a run emit, as long as they succeed. -/
def emitted (step : σ → ι → Except ε σ) (out : σ → ι → List ω) : σ → List ι → List ω
  | _, [] => []
  | s, i :: is =>
    match step s i with
    | .error _ => []
    | .ok s' => out s i ++ emitted step out s' is

theorem emitted_cons {step : σ → ι → Except ε σ} {out : σ → ι → List ω} {s s' : σ} {i : ι}
    {is : List ι} (h : step s i = .ok s') :
    emitted step out s (i :: is) = out s i ++ emitted step out s' is := by
  rw [emitted, h]

theorem emitted_append {step : σ → ι → Except ε σ} {out : σ → ι → List ω} {js : List ι} :
    ∀ {is : List ι} {s m : σ}, is.foldlM step s = .ok m →
      emitted step out s (is ++ js) = emitted step out s is ++ emitted step out m js
  | [], s, m, h => by
    have : s = m := by simpa [pure, Except.pure] using h
    exact this ▸ rfl
  | i :: is, s, m, h => by
    obtain ⟨s', hs', hrest⟩ := foldlM_cons_ok.mp h
    rw [List.cons_append, emitted_cons hs', emitted_cons hs', emitted_append hrest,
      List.append_assoc]

/-- What has been emitted was emitted by an input. -/
theorem mem_emitted {step : σ → ι → Except ε σ} {out : σ → ι → List ω} {w : ω} :
    ∀ {is : List ι} {s : σ}, w ∈ emitted step out s is → ∃ i ∈ is, ∃ s, w ∈ out s i
  | [], _, h => absurd h List.not_mem_nil
  | i :: is, s, h => by
    cases hs : step s i with
    | error e => simp [emitted, hs] at h
    | ok s' =>
      rw [emitted_cons hs] at h
      rcases List.mem_append.mp h with h | h
      · exact ⟨i, List.mem_cons_self, s, h⟩
      · obtain ⟨j, hj, s, hw⟩ := mem_emitted h
        exact ⟨j, List.mem_cons_of_mem i hj, s, hw⟩

/-- **An invariant between the state and what has been emitted.** -/
theorem foldlM_emitted_inv {step : σ → ι → Except ε σ} {out : σ → ι → List ω}
    {I : List ω → σ → Prop} {pre : ι → Prop}
    (hstep : ∀ l s i s', I l s → pre i → step s i = .ok s' → I (l ++ out s i) s') :
    ∀ {is : List ι} {l : List ω} {s s' : σ}, I l s → (∀ i ∈ is, pre i) →
      is.foldlM step s = .ok s' → I (l ++ emitted step out s is) s'
  | [], l, s, s', h, _, hrun => by
    have : s = s' := by simpa [pure, Except.pure] using hrun
    rw [← this, emitted, List.append_nil]
    exact h
  | i :: is, l, s, s', h, hpre, hrun => by
    obtain ⟨m, hm, hrest⟩ := foldlM_cons_ok.mp hrun
    rw [emitted_cons hm, ← List.append_assoc]
    exact foldlM_emitted_inv hstep (hstep l s i m h (hpre i List.mem_cons_self) hm)
      (fun j hj => hpre j (List.mem_cons_of_mem i hj)) hrest

/-! ## 5. Properties of every state reached -/

/-- `P` holds in every state the run reaches. -/
def Always (step : σ → ι → Except ε σ) (P : σ → Prop) : σ → List ι → Prop
  | s, [] => P s
  | s, i :: is => P s ∧ ∀ s', step s i = .ok s' → Always step P s' is

/-- Every step the run makes meets the condition `C`, judged before the step. -/
def EachStep (step : σ → ι → Except ε σ) (C : σ → ι → Prop) : σ → List ι → Prop
  | _, [] => True
  | s, i :: is => ∀ s', step s i = .ok s' → C s i ∧ EachStep step C s' is

instance decidableEachStep {step : σ → ι → Except ε σ} {C : σ → ι → Prop}
    [∀ s i, Decidable (C s i)] : ∀ (s : σ) (is : List ι), Decidable (EachStep step C s is)
  | _, [] => isTrue trivial
  | s, i :: is =>
    match h : step s i with
    | .error _ => isTrue fun s' hs' => by rw [h] at hs'; cases hs'
    | .ok m =>
      have : Decidable (EachStep step C m is) := decidableEachStep m is
      decidable_of_iff (C s i ∧ EachStep step C m is)
        ⟨fun hm s' hs' => by rw [h] at hs'; cases hs'; exact hm, fun hall => hall m h⟩

instance decidableAlways {step : σ → ι → Except ε σ} {P : σ → Prop} [∀ s, Decidable (P s)] :
    ∀ (s : σ) (is : List ι), Decidable (Always step P s is)
  | s, [] => inferInstanceAs (Decidable (P s))
  | s, i :: is =>
    match h : step s i with
    | .error _ => decidable_of_iff (P s)
        ⟨fun hP => ⟨hP, fun s' hs' => by rw [h] at hs'; cases hs'⟩, fun hall => hall.1⟩
    | .ok m =>
      have : Decidable (Always step P m is) := decidableAlways m is
      decidable_of_iff (P s ∧ Always step P m is)
        ⟨fun hm => ⟨hm.1, fun s' hs' => by rw [h] at hs'; cases hs'; exact hm.2⟩,
          fun hall => ⟨hall.1, hall.2 m h⟩⟩

theorem Always.head {step : σ → ι → Except ε σ} {P : σ → Prop} :
    ∀ {is : List ι} {s : σ}, Always step P s is → P s
  | [], _, h => h
  | _ :: _, _, h => h.1

theorem Always.of_foldlM {step : σ → ι → Except ε σ} {P : σ → Prop} :
    ∀ {is : List ι} {s s' : σ}, Always step P s is → is.foldlM step s = .ok s' → P s'
  | [], s, s', h, hrun => by
    have : s = s' := by simpa [pure, Except.pure] using hrun
    exact this ▸ h
  | _ :: _, _, _, h, hrun => by
    obtain ⟨m, hm, hrest⟩ := foldlM_cons_ok.mp hrun
    exact (h.2 m hm).of_foldlM hrest

theorem Always.mono {step : σ → ι → Except ε σ} {P P' : σ → Prop} (hP : ∀ s, P s → P' s) :
    ∀ {is : List ι} {s : σ}, Always step P s is → Always step P' s is
  | [], s, h => hP s h
  | _ :: _, s, h => ⟨hP s h.1, fun s' hs' => (h.2 s' hs').mono hP⟩

/-- An invariant holds beside whatever else holds throughout a run. -/
theorem always_and_inv {step : σ → ι → Except ε σ} {I P : σ → Prop}
    (hinv : ∀ s i s', I s → step s i = .ok s' → I s') :
    ∀ {is : List ι} {s : σ}, I s → (Always step (fun s => I s ∧ P s) s is ↔ Always step P s is)
  | [], _, hI => and_iff_right hI
  | i :: _, s, hI => and_congr (and_iff_right hI) <| forall_congr' fun s' =>
      forall_congr' fun hs' => always_and_inv hinv (hinv s i s' hI hs')

/-- **What the steps that meet a condition preserve** holds throughout a run of such steps. -/
theorem EachStep.always {step : σ → ι → Except ε σ} {I : σ → Prop} {C : σ → ι → Prop}
    (hstep : ∀ s i s', I s → C s i → step s i = .ok s' → I s') :
    ∀ {is : List ι} {s : σ}, I s → EachStep step C s is → Always step I s is
  | [], _, hI, _ => hI
  | i :: _, s, hI, h => ⟨hI, fun s' hs' =>
    EachStep.always hstep (hstep s i s' hI (h s' hs').1 hs') (h s' hs').2⟩

/-- **Refinement with stuttering.**  When each step is a step of another machine or no step of it,
a run is a run of the other machine, and meets the other machine's conditions. -/
theorem EachStep.refinement {κ : Type} {step : σ → ι → Except ε σ} {step' : τ → κ → Except ε τ}
    {abs : σ → τ} {I : σ → Prop} {C : σ → ι → Prop} {C' : τ → κ → Prop}
    (hstep : ∀ s i s', I s → C s i → step s i = .ok s' → I s' ∧
      (abs s' = abs s ∨ ∃ k, C' (abs s) k ∧ step' (abs s) k = .ok (abs s'))) :
    ∀ {is : List ι} {s s' : σ}, I s → EachStep step C s is → is.foldlM step s = .ok s' →
      ∃ ks, EachStep step' C' (abs s) ks ∧ ks.foldlM step' (abs s) = .ok (abs s')
  | [], s, s', _, _, hrun => by
    have hsame : s = s' := by simpa [pure, Except.pure] using hrun
    exact ⟨[], trivial, by rw [hsame]; rfl⟩
  | i :: is, s, s', hI, hC, hrun => by
    obtain ⟨m, hm, hrest⟩ := foldlM_cons_ok.mp hrun
    obtain ⟨hCi, hCs⟩ := hC m hm
    obtain ⟨hIm, hsim⟩ := hstep s i m hI hCi hm
    obtain ⟨ks, hks, hrun'⟩ := EachStep.refinement hstep hIm hCs hrest
    rcases hsim with hidle | ⟨k, hk, hmove⟩
    · rw [hidle] at hks hrun'
      exact ⟨ks, hks, hrun'⟩
    · refine ⟨k :: ks, fun t ht => ?_, foldlM_cons_ok.mpr ⟨abs m, hmove, hrun'⟩⟩
      obtain rfl := Except.ok.inj (hmove.symm.trans ht)
      exact ⟨hk, hks⟩

/-- **An invariant between the state and what the steps that meet a condition have emitted.** -/
theorem EachStep.emitted_inv {step : σ → ι → Except ε σ} {out : σ → ι → List ω}
    {I : List ω → σ → Prop} {C : σ → ι → Prop}
    (hstep : ∀ l s i s', I l s → C s i → step s i = .ok s' → I (l ++ out s i) s') :
    ∀ {is : List ι} {l : List ω} {s s' : σ}, I l s → EachStep step C s is →
      is.foldlM step s = .ok s' → I (l ++ emitted step out s is) s'
  | [], l, s, s', h, _, hrun => by
    have : s = s' := by simpa [pure, Except.pure] using hrun
    rw [← this, emitted, List.append_nil]
    exact h
  | i :: is, l, s, s', h, hC, hrun => by
    obtain ⟨m, hm, hrest⟩ := foldlM_cons_ok.mp hrun
    obtain ⟨hCi, hCs⟩ := hC m hm
    rw [emitted_cons hm, ← List.append_assoc]
    exact EachStep.emitted_inv hstep (hstep l s i m h hCi hm) hCs hrest

theorem EachStep.of_forall {step : σ → ι → Except ε σ} {C : σ → ι → Prop} :
    ∀ {is : List ι} {s : σ}, (∀ i ∈ is, ∀ s, C s i) → EachStep step C s is
  | [], _, _ => trivial
  | i :: _, s, h => fun _ _ => ⟨h i List.mem_cons_self s,
    EachStep.of_forall fun j hj => h j (List.mem_cons_of_mem i hj)⟩

/-- Two conditions that agree while `P` holds agree along a run on which it does. -/
theorem Always.eachStep_congr {step : σ → ι → Except ε σ} {P : σ → Prop} {C C' : σ → ι → Prop}
    {pre : ι → Prop}
    (hiff : ∀ s i s', P s → P s' → pre i → step s i = .ok s' → (C s i ↔ C' s i)) :
    ∀ {is : List ι} {s : σ}, Always step P s is → (∀ i ∈ is, pre i) →
      (EachStep step C s is ↔ EachStep step C' s is)
  | [], _, _, _ => Iff.rfl
  | i :: _, s, hP, hpre => by
    refine forall_congr' fun s' => forall_congr' fun hs' => and_congr ?_ ?_
    · exact hiff s i s' hP.1 (hP.2 s' hs').head (hpre i List.mem_cons_self) hs'
    · exact (hP.2 s' hs').eachStep_congr hiff fun j hj => hpre j (List.mem_cons_of_mem i hj)

/-- A run whose steps succeed while `P` holds goes through to its end. -/
theorem Always.exists_foldlM {step : σ → ι → Except ε σ} {P : σ → Prop} {pre : ι → Prop}
    (hstep : ∀ s i, P s → pre i → ∃ s', step s i = .ok s') :
    ∀ {is : List ι} {s : σ}, Always step P s is → (∀ i ∈ is, pre i) →
      ∃ s', is.foldlM step s = .ok s'
  | [], s, _, _ => ⟨s, rfl⟩
  | i :: _, s, hP, hpre => by
    obtain ⟨m, hm⟩ := hstep s i hP.1 (hpre i List.mem_cons_self)
    obtain ⟨s', hs'⟩ :=
      (hP.2 m hm).exists_foldlM hstep fun j hj => hpre j (List.mem_cons_of_mem i hj)
    exact ⟨s', foldlM_cons_ok.mpr ⟨m, hm, hs'⟩⟩

/-- **An exact condition for a property to hold throughout a run.**  `I` is an invariant that comes
for free. -/
theorem always_iff_eachStep {step : σ → ι → Except ε σ} {I P : σ → Prop} {C : σ → ι → Prop}
    {pre : ι → Prop} (hinv : ∀ s i s', I s → pre i → step s i = .ok s' → I s')
    (hiff : ∀ s i s', I s → P s → pre i → step s i = .ok s' → (P s' ↔ C s i)) :
    ∀ {is : List ι} {s : σ}, I s → P s → (∀ i ∈ is, pre i) →
      (Always step P s is ↔ EachStep step C s is)
  | [], _, _, hP, _ => iff_of_true hP trivial
  | i :: is, s, hI, hP, hpre => by
    have hi := hpre i (by simp)
    have hrest := fun j hj => hpre j (List.mem_cons_of_mem i hj)
    constructor
    · rintro ⟨-, h⟩ s' hs'
      have hP' := (h s' hs').head
      exact ⟨(hiff s i s' hI hP hi hs').mp hP', (always_iff_eachStep hinv hiff
        (hinv s i s' hI hi hs') hP' hrest).mp (h s' hs')⟩
    · refine fun h => ⟨hP, fun s' hs' => ?_⟩
      obtain ⟨hC, h'⟩ := h s' hs'
      exact (always_iff_eachStep hinv hiff (hinv s i s' hI hi hs')
        ((hiff s i s' hI hP hi hs').mpr hC) hrest).mpr h'

/-! ## 6. Runs that go through -/

/-- The run goes through to its end, and every step of it meets the condition `C`. -/
def Through (step : σ → ι → Except ε σ) (C : σ → ι → Prop) : σ → List ι → Prop
  | _, [] => True
  | s, i :: is => C s i ∧ ∃ s', step s i = .ok s' ∧ Through step C s' is

/-- Every step the run tries meets the condition `C`, judged before the step: unlike `EachStep`,
also the step that fails. -/
def EachTry (step : σ → ι → Except ε σ) (C : σ → ι → Prop) : σ → List ι → Prop
  | _, [] => True
  | s, i :: is => C s i ∧ ∀ s', step s i = .ok s' → EachTry step C s' is

instance decidableEachTry {step : σ → ι → Except ε σ} {C : σ → ι → Prop}
    [∀ s i, Decidable (C s i)] : ∀ (s : σ) (is : List ι), Decidable (EachTry step C s is)
  | _, [] => isTrue trivial
  | s, i :: is =>
    match h : step s i with
    | .error _ => decidable_of_iff (C s i)
        ⟨fun hC => ⟨hC, fun s' hs' => by rw [h] at hs'; cases hs'⟩, fun hall => hall.1⟩
    | .ok m =>
      have : Decidable (EachTry step C m is) := decidableEachTry m is
      decidable_of_iff (C s i ∧ EachTry step C m is)
        ⟨fun hm => ⟨hm.1, fun s' hs' => by rw [h] at hs'; cases hs'; exact hm.2⟩,
          fun hall => ⟨hall.1, hall.2 m h⟩⟩

theorem EachTry.eachStep {step : σ → ι → Except ε σ} {C : σ → ι → Prop} :
    ∀ {is : List ι} {s : σ}, EachTry step C s is → EachStep step C s is
  | [], _, _ => trivial
  | _ :: _, _, h => fun s' hs' => ⟨h.1, (h.2 s' hs').eachStep⟩

theorem EachTry.of_forall {step : σ → ι → Except ε σ} {C : σ → ι → Prop} :
    ∀ {is : List ι} {s : σ}, (∀ i ∈ is, ∀ s, C s i) → EachTry step C s is
  | [], _, _ => trivial
  | i :: _, s, h => ⟨h i List.mem_cons_self s,
    fun _ _ => EachTry.of_forall fun j hj => h j (List.mem_cons_of_mem i hj)⟩

/-- **An exact condition for a run to go through.**  Under an invariant of the steps that meet `A`,
a step succeeds exactly if it meets `C`; then a run whose steps meet `A` goes through exactly if
each step it tries meets `C`. -/
theorem EachTry.through_iff {step : σ → ι → Except ε σ} {I : σ → Prop} {A C : σ → ι → Prop}
    (hinv : ∀ s i s', I s → A s i → step s i = .ok s' → I s')
    (hiff : ∀ s i, I s → A s i → ((∃ s', step s i = .ok s') ↔ C s i)) :
    ∀ {is : List ι} {s : σ}, I s → EachTry step A s is →
      ((∃ s', is.foldlM step s = .ok s') ↔ EachTry step C s is)
  | [], s, _, _ => iff_of_true ⟨s, rfl⟩ trivial
  | i :: is, s, hI, hA => by
    have hi := hiff s i hI hA.1
    constructor
    · rintro ⟨s', hrun⟩
      obtain ⟨m, hm, hrest⟩ := foldlM_cons_ok.mp hrun
      refine ⟨hi.mp ⟨m, hm⟩, fun m' hm' => ?_⟩
      obtain rfl := Except.ok.inj (hm.symm.trans hm')
      exact (EachTry.through_iff hinv hiff (hinv s i m hI hA.1 hm) (hA.2 m hm)).mp ⟨s', hrest⟩
    · rintro ⟨hC, hall⟩
      obtain ⟨m, hm⟩ := hi.mpr hC
      obtain ⟨s', hrest⟩ := (EachTry.through_iff hinv hiff (hinv s i m hI hA.1 hm)
        (hA.2 m hm)).mpr (hall m hm)
      exact ⟨s', foldlM_cons_ok.mpr ⟨m, hm, hrest⟩⟩

/-- Steps that all meet the condition `C` lead from one state to another. -/
inductive Leads (step : σ → ι → Except ε σ) (C : σ → ι → Prop) : σ → List ι → σ → Prop
  | nil (s : σ) : Leads step C s [] s
  | cons {s m s' : σ} {i : ι} {is : List ι} (hC : C s i) (hm : step s i = .ok m)
      (hrest : Leads step C m is s') : Leads step C s (i :: is) s'

namespace Leads

variable {step : σ → ι → Except ε σ} {C : σ → ι → Prop} {s m s' : σ} {is js : List ι}

theorem append (h : Leads step C s is m) (h' : Leads step C m js s') :
    Leads step C s (is ++ js) s' := by
  induction h with
  | nil => exact h'
  | cons hC hm _ ih => exact .cons hC hm (ih h')

theorem single {i : ι} (hC : C s i) (hm : step s i = .ok s') : Leads step C s [i] s' :=
  .cons hC hm (.nil s')

theorem foldlM (h : Leads step C s is s') : is.foldlM step s = .ok s' := by
  induction h with
  | nil => rfl
  | cons _ hm _ ih => exact foldlM_cons_ok.mpr ⟨_, hm, ih⟩

theorem eachStep (h : Leads step C s is s') : EachStep step C s is := by
  induction h with
  | nil => trivial
  | cons hC hm _ ih =>
    intro m' hm'
    obtain rfl := Except.ok.inj (hm.symm.trans hm')
    exact ⟨hC, ih⟩

/-- **A step that makes progress** leads, when it is repeated, to the goal. -/
theorem replicate {I : ℕ → σ → Prop} {i : ι}
    (hstep : ∀ n s, I (n + 1) s → C s i ∧ ∃ s', step s i = .ok s' ∧ I n s') :
    ∀ {n : ℕ} {s : σ}, I n s → ∃ s', Leads step C s (List.replicate n i) s' ∧ I 0 s'
  | 0, s, h => ⟨s, .nil s, h⟩
  | n + 1, s, h => by
    obtain ⟨hC, m, hm, hI⟩ := hstep n s h
    obtain ⟨s', hrest, hI'⟩ := replicate hstep hI
    exact ⟨s', .cons hC hm hrest, hI'⟩

end Leads

/-- **An exact condition for a run to go through with a property in every state.** -/
theorem always_iff_through {step : σ → ι → Except ε σ} {P : σ → Prop} {C : σ → ι → Prop}
    {pre : ι → Prop}
    (hiff : ∀ s i, P s → pre i → ((∃ s', step s i = .ok s' ∧ P s') ↔ C s i)) :
    ∀ {is : List ι} {s : σ}, P s → (∀ i ∈ is, pre i) →
      ((∃ s', is.foldlM step s = .ok s') ∧ Always step P s is ↔ Through step C s is)
  | [], s, hP, _ => iff_of_true ⟨⟨s, rfl⟩, hP⟩ trivial
  | i :: is, s, hP, hpre => by
    have hi := hiff s i hP (hpre i List.mem_cons_self)
    have hrest := fun j hj => hpre j (List.mem_cons_of_mem i hj)
    constructor
    · rintro ⟨⟨s', hrun⟩, -, hall⟩
      obtain ⟨m, hm, hrun⟩ := foldlM_cons_ok.mp hrun
      have hPm := (hall m hm).head
      refine ⟨hi.mp ⟨m, hm, hPm⟩, m, hm, ?_⟩
      exact (always_iff_through hiff hPm hrest).mp ⟨⟨s', hrun⟩, hall m hm⟩
    · rintro ⟨hC, m, hm, hthrough⟩
      obtain ⟨m', hm', hPm⟩ := hi.mpr hC
      obtain rfl := Except.ok.inj (hm'.symm.trans hm)
      obtain ⟨⟨s', hrun⟩, hall⟩ := (always_iff_through hiff hPm hrest).mpr hthrough
      refine ⟨⟨s', foldlM_cons_ok.mpr ⟨m', hm', hrun⟩⟩, hP, fun m₂ hm₂ => ?_⟩
      obtain rfl := Except.ok.inj (hm'.symm.trans hm₂)
      exact hall

/-- **The same, along a reference.**  A step that meets the condition follows the reference, and one
that does not fails. -/
theorem always_iff_alongRun {step : σ → ι → Except ε σ} {ref : τ → ι → τ} {R : σ → τ → Prop}
    {P : σ → Prop} {C pre : τ → ι → Prop} (hP : ∀ s t, R s t → P s)
    (hok : ∀ s t i, R s t → pre t i → C t i → ∃ s', step s i = .ok s' ∧ R s' (ref t i))
    (hfail : ∀ s t i, R s t → pre t i → ¬ C t i → ∀ s', step s i ≠ .ok s') :
    ∀ {is : List ι} {s : σ} {t : τ}, R s t → AlongRun ref pre t is →
      ((∃ s', is.foldlM step s = .ok s') ∧ Always step P s is ↔ AlongRun ref C t is)
  | [], s, t, hR, _ => iff_of_true ⟨⟨s, rfl⟩, hP s t hR⟩ trivial
  | i :: is, s, t, hR, hpre => by
    constructor
    · rintro ⟨⟨s', hrun⟩, -, hall⟩
      obtain ⟨m, hm, hrun⟩ := foldlM_cons_ok.mp hrun
      by_cases hC : C t i
      · obtain ⟨m', hm', hR'⟩ := hok s t i hR hpre.1 hC
        obtain rfl := Except.ok.inj (hm'.symm.trans hm)
        exact ⟨hC, (always_iff_alongRun hP hok hfail hR' hpre.2).mp ⟨⟨s', hrun⟩, hall _ hm⟩⟩
      · exact absurd hm (hfail s t i hR hpre.1 hC m)
    · rintro ⟨hC, hrest⟩
      obtain ⟨m, hm, hR'⟩ := hok s t i hR hpre.1 hC
      obtain ⟨⟨s', hrun⟩, hall⟩ := (always_iff_alongRun hP hok hfail hR' hpre.2).mpr hrest
      refine ⟨⟨s', foldlM_cons_ok.mpr ⟨m, hm, hrun⟩⟩, hP s t hR, fun m₂ hm₂ => ?_⟩
      obtain rfl := Except.ok.inj (hm.symm.trans hm₂)
      exact hall

/-! ## 7. Runs with a budget -/

/-- **A run with a budget.**  Each step follows a reference that only adds to what is used, and
fails where more than `n` would be used.  Then the run follows the reference to its end, or fails
if that end is beyond the budget. -/
theorem foldlM_eq_of_budget {step : σ → ι → Except ε σ} {ref : σ → ι → σ} {pre : σ → ι → Prop}
    {n : Nat} {e : ε} (used : σ → Nat) (hmono : ∀ s i, used s ≤ used (ref s i))
    (hstep : ∀ s i, used s ≤ n → pre s i →
      step s i = if used (ref s i) ≤ n then .ok (ref s i) else .error e) :
    ∀ {is : List ι} {s : σ}, used s ≤ n → AlongRun ref pre s is →
      is.foldlM step s = if used (is.foldl ref s) ≤ n then .ok (is.foldl ref s) else .error e
  | [], _, hs, _ => (if_pos hs).symm
  | i :: is, s, hs, hpre => by
    rw [List.foldlM_cons, List.foldl_cons, hstep s i hs hpre.1]
    split
    · next hfits => exact foldlM_eq_of_budget used hmono hstep hfits hpre.2
    · next hover =>
      -- the rest of the reference does not give back what is used
      have hrest : used (ref s i) ≤ used (is.foldl ref (ref s i)) :=
        List.foldlRecOn is ref (motive := fun t => used (ref s i) ≤ used t)
          (Nat.le_refl _) fun t h j _ => Nat.le_trans h (hmono t j)
      rw [if_neg fun h => hover (Nat.le_trans hrest h)]
      rfl

end Run
