import DhmpFs.Library.RemoteCalls

/-!
# Programs over calls

A program makes calls, gets their results and has steps of its own. What it does over a queue, a
worker and nodes, it does over an object on which every operation takes effect at once, at some
time between its call and its return.

## Main definitions

* `Together`: a program and what it calls.
* `ObjectStep`: the object.
* `ServesObject`: the worker and its nodes are the object.
-/

namespace Library

variable {γ ι κ σ Op Res Req Rep St φ τ X : Type*} {S S' : Type*}

/-- What a program sees: a call of its own, or a result. -/
def CallEvent.seen : CallEvent γ ι Op Res → Option (γ × (Op ⊕ Res))
  | .call c op => some (c, .inl op)
  | .ret c res => some (c, .inr res)
  | _ => none

theorem CallEvent.seen_eq_none [DecidableEq γ] {e : CallEvent γ ι Op Res}
    (h : e.called = none ∧ ∀ c, e.returned c = none) : e.seen = none := by
  cases e with
  | call => cases h.1
  | ret c res => simpa [CallEvent.returned] using h.2 c
  | _ => rfl

/-- A step of the program alone, a call or a return, or a step that the program does not see. -/
inductive Together (program : φ → (γ × (Op ⊕ Res)) ⊕ τ → φ → Prop)
    (step : S → CallEvent γ ι Op Res → S → Prop) :
    φ × S → CallEvent γ ι Op Res ⊕ τ → φ × S → Prop
  | own {f f' : φ} {s : S} {t : τ} (acts : program f (.inr t) f') :
    Together program step (f, s) (.inr t) (f', s)
  | seen {f f' : φ} {s s' : S} {e : CallEvent γ ι Op Res} {v : γ × (Op ⊕ Res)}
    (sees : e.seen = some v) (acts : program f (.inl v) f') (steps : step s e s') :
    Together program step (f, s) (.inl e) (f', s')
  | hidden {f : φ} {s s' : S} {e : CallEvent γ ι Op Res} (hides : e.seen = none)
    (steps : step s e s') : Together program step (f, s) (.inl e) (f, s')

theorem Run.of_nil {α : Type*} {step : S → α → S → Prop} {s t : S} (h : Run step s [] t) :
    t = s := by
  generalize hnil : ([] : List α) = l at h
  cases h with
  | refl => rfl
  | snoc => simp at hnil

theorem Run.of_single {α : Type*} {step : S → α → S → Prop} {s t : S} {a : α}
    (h : Run step s [a] t) : step s a t := by
  generalize hl : [a] = l at h
  cases h with
  | refl => simp at hl
  | @snoc _ _ as b hrun hstep =>
    obtain ⟨rfl, rfl⟩ : as = [] ∧ b = a := by
      cases as with
      | nil => simpa using hl.symm
      | cons c as => simp at hl
    exact hrun.of_nil ▸ hstep

/-- A program does not notice that what it calls is replaced by what can do the same. -/
theorem Together.simulate {program : φ → (γ × (Op ⊕ Res)) ⊕ τ → φ → Prop}
    {step : S → CallEvent γ ι Op Res → S → Prop} {step' : S' → CallEvent γ ι Op Res → S' → Prop}
    {R : S → S' → Prop}
    (sim : ∀ s x e s', R s x → step s e s' → ∃ x', step' x e x' ∧ R s' x')
    {start stop : φ × S} {events : List (CallEvent γ ι Op Res ⊕ τ)}
    (run : Run (Together program step) start events stop) {x : S'} (h : R start.2 x) :
    ∃ x', Run (Together program step') (start.1, x) events (stop.1, x') ∧ R stop.2 x' := by
  induction run with
  | refl => exact ⟨x, .refl _, h⟩
  | snoc _ hs ih =>
    obtain ⟨x', hrun, hx⟩ := ih
    cases hs with
    | own acts => exact ⟨x', .snoc hrun (.own acts), hx⟩
    | seen sees acts steps =>
      obtain ⟨y, hstep, hy⟩ := sim _ _ _ _ hx steps
      exact ⟨y, .snoc hrun (.seen sees acts hstep), hy⟩
    | hidden hides steps =>
      obtain ⟨y, hstep, hy⟩ := sim _ _ _ _ hx steps
      exact ⟨y, .snoc hrun (.hidden hides hstep), hy⟩

/-! ## The object -/

/-- A caller is outside a call, or has one that is open, or has its result. -/
structure ObjectState (γ Op Res X : Type*) where
  caller : γ → Option (Op ⊕ Res)
  object : X

/-- An operation takes effect while its call is open. -/
inductive ObjectStep [DecidableEq γ] (act : X → γ × Op × Res → X → Prop)
    (s : ObjectState γ Op Res X) : CallEvent γ ι Op Res → ObjectState γ Op Res X → Prop
  | call {c : γ} {op : Op} (idle : s.caller c = none) :
    ObjectStep act s (.call c op)
      { s with caller := Function.update s.caller c (some (.inl op)) }
  | done {c : γ} {op : Op} {res : Res} {x : X} (waits : s.caller c = some (.inl op))
    (acts : act s.object (c, op, res) x) :
    ObjectStep act s (.done c op res)
      ⟨Function.update s.caller c (some (.inr res)), x⟩
  | ret {c : γ} {res : Res} (result : s.caller c = some (.inr res)) :
    ObjectStep act s (.ret c res) { s with caller := Function.update s.caller c none }
  | idle {e : CallEvent γ ι Op Res} (hides : e.seen = none) (before : e.finished = none) :
    ObjectStep act s e s

/-- The induction rule of a program over an object: what holds with the steps of the program so far
is kept by its steps, by its calls and returns, and by the operations as they take effect. -/
theorem Together.history [DecidableEq γ] {program : φ → (γ × (Op ⊕ Res)) ⊕ τ → φ → Prop}
    {act : X → γ × Op × Res → X → Prop} (Inv : List τ → φ → ObjectState γ Op Res X → Prop)
    (own : ∀ l f x t f', Inv l f x → program f (.inr t) f' → Inv (l ++ [t]) f' x)
    (call : ∀ l f x c op f', Inv l f x → program f (.inl (c, .inl op)) f' → x.caller c = none →
      Inv l f' { x with caller := Function.update x.caller c (some (.inl op)) })
    (ret : ∀ l f x c res f', Inv l f x → program f (.inl (c, .inr res)) f' →
      x.caller c = some (.inr res) → Inv l f' { x with caller := Function.update x.caller c none })
    (done : ∀ l f x c op res y, Inv l f x → x.caller c = some (.inl op) →
      act x.object (c, op, res) y → Inv l f ⟨Function.update x.caller c (some (.inr res)), y⟩)
    {start stop : φ × ObjectState γ Op Res X} (h0 : Inv [] start.1 start.2)
    {events : List (CallEvent γ ι Op Res ⊕ τ)}
    (run : Run (Together program (ObjectStep act)) start events stop) :
    Inv (events.filterMap Sum.getRight?) stop.1 stop.2 := by
  induction run with
  | refl => exact h0
  | snoc _ hs ih =>
    rw [List.filterMap_append]
    cases hs with
    | own acts => exact own _ _ _ _ _ ih acts
    | seen sees acts steps =>
      rw [List.filterMap_cons_none rfl, List.filterMap_nil, List.append_nil]
      cases steps with
      | call idle =>
        obtain rfl := Option.some.inj sees
        exact call _ _ _ _ _ _ ih acts idle
      | done => cases sees
      | ret result =>
        obtain rfl := Option.some.inj sees
        exact ret _ _ _ _ _ _ ih acts result
      | idle hides => cases hides.symm.trans sees
    | hidden hides steps =>
      rw [List.filterMap_cons_none rfl, List.filterMap_nil, List.append_nil]
      cases steps with
      | call => cases hides
      | done waits acts => exact done _ _ _ _ _ _ _ ih waits acts
      | ret => cases hides
      | idle => exact ih

/-- The callers wait and have results as at the object, and the client and the nodes, with the
operation in hand put aside, are in relation with it. -/
structure ServesObject [DecidableEq ι] (P : Protocol ι κ σ Op Res Req Rep St)
    (Sim : κ × (ι → σ) → X → Prop) (s : CallState γ ι κ σ Op Res Req Rep St)
    (x : ObjectState γ Op Res X) : Prop where
  phase : ∃ a, Phase P a s ∧ Sim a x.object
  waiting : Waiting s
  caller : ∀ c, s.caller c = (x.caller c).map (Sum.elim (fun _ => none) some)
  pending : ∀ c op, (c, op) ∈ s.worker.toList ++ s.queue → x.caller c = some (.inl op)

namespace ServesObject

variable [DecidableEq ι] {P : Protocol ι κ σ Op Res Req Rep St}
  {Sim : κ × (ι → σ) → X → Prop} {s t : CallState γ ι κ σ Op Res Req Rep St}
  {x : ObjectState γ Op Res X} {act : X → γ × Op × Res → X → Prop}
  {ok : CallState γ ι κ σ Op Res Req Rep St → CallEvent γ ι Op Res → Prop}

theorem init {k : κ} {node : ι → σ} {object : X} (h : Sim (k, node) object) :
    ServesObject P Sim (.init k node)
      (⟨fun _ => none, object⟩ : ObjectState γ Op Res X) :=
  ⟨⟨_, .init k node, h⟩, by constructor <;> simp [CallState.init], fun _ => rfl, by
    simp [CallState.init]⟩

theorem caller_none (h : ServesObject P Sim s x) {c : γ} (hc : s.caller c = none) :
    x.caller c = none := by
  have hcaller := h.caller c
  rw [hc] at hcaller
  exact Option.map_eq_none_iff.mp hcaller.symm

theorem caller_result (h : ServesObject P Sim s x) {c : γ} {res : Res}
    (hc : s.caller c = some (some res)) : x.caller c = some (.inr res) := by
  have hcaller := h.caller c
  rw [hc] at hcaller
  obtain ⟨v, hv, hres⟩ := Option.map_eq_some_iff.mp hcaller.symm
  cases v with
  | inl op => cases hres
  | inr res' => exact hv.trans (congrArg _ (congrArg _ (Option.some.inj hres)))

variable [DecidableEq γ]

/-- The first operation is over. -/
theorem done {a' : κ × (ι → σ)} {y : X} {c : γ} {res : Res} (h : ServesObject P Sim s x) (op : Op)
    (hwait : Waiting t) (hphase : Phase P a' t) (hsim : Sim a' y)
    (hl : s.worker.toList ++ s.queue = (c, op) :: (t.worker.toList ++ t.queue))
    (hcaller : t.caller = Function.update s.caller c (some (some res))) :
    ServesObject P Sim t ⟨Function.update x.caller c (some (.inr res)), y⟩ := by
  obtain ⟨-, -, hrest⟩ := h.waiting.done hl
  refine ⟨⟨a', hphase, hsim⟩, hwait, fun c' => ?_, fun c' op' hmem => ?_⟩
  · rw [hcaller]
    by_cases hc : c' = c
    · subst hc
      simp
    · simpa [hc] using h.caller c'
  · obtain ⟨hne, -⟩ := hrest c' op' hmem
    dsimp only
    rw [Function.update_of_ne hne]
    exact h.pending c' op' (by rw [hl]; exact List.mem_cons_of_mem _ hmem)

theorem step (h : ServesObject P Sim s x)
    (acts : ∀ a (entry : γ × Op × Res) a' x, Sim a x → P.Atomic a entry a' →
      ∃ x', act x entry x' ∧ Sim a' x')
    (wait : ∀ a x op k i req k' res, Sim a x → P.start a.1 op k (.inr (i, req)) →
      ¬ P.finish k op k' res)
    (settled : ∀ a x s e t, Sim a x → Phase P a s → P.Step s e t → ok s e →
      Protocol.Settled s e)
    {e : CallEvent γ ι Op Res} (hs : guarded ok P.Step s e t) :
    ∃ y, ObjectStep act x e y ∧ ServesObject P Sim t y := by
  obtain ⟨hok, hs⟩ := hs
  obtain ⟨a, hphase, hsim⟩ := h.phase
  have hwait := h.waiting.step hs
  obtain ⟨a', ha', hphase'⟩ := hphase.step (fun op k i req k' res => wait a _ op k i req k' res hsim)
    hs (settled a _ s e t hsim hphase hs hok)
  have keep : e.finished = none → Phase P a t := by
    intro he
    rw [he] at ha'
    exact ha'.of_nil ▸ hphase'
  have finish : ∀ c op res, e = .done c op res →
      ∃ y, act x.object (c, op, res) y ∧ Sim a' y := by
    rintro c op res rfl
    exact acts a _ a' x.object hsim ha'.of_single
  cases hs with
  | @call c op idle =>
    have hx := h.caller_none idle
    refine ⟨_, .call hx, ⟨a, keep rfl, hsim⟩, hwait, fun c' => ?_, fun c' op' hmem => ?_⟩
    · by_cases hc : c' = c
      · subst hc
        simp
      · simpa [hc] using h.caller c'
    · rw [← List.append_assoc, List.mem_append] at hmem
      rcases hmem with hmem | hmem
      · have hne : c' ≠ c := by
          rintro rfl
          simp [h.pending c' op' hmem] at hx
        dsimp only
        rw [Function.update_of_ne hne]
        exact h.pending c' op' hmem
      · obtain ⟨rfl, rfl⟩ : c' = c ∧ op' = op := by simpa using hmem
        exact Function.update_self ..
  | take idle first =>
    refine ⟨x, .idle rfl rfl, ⟨a, keep rfl, hsim⟩, hwait, h.caller, fun c' op' hmem => ?_⟩
    exact h.pending c' op' (by simpa [idle, first] using hmem)
  | serve => exact ⟨x, .idle rfl rfl, ⟨a, keep rfl, hsim⟩, hwait, h.caller, h.pending⟩
  | deliver => exact ⟨x, .idle rfl rfl, ⟨a, keep rfl, hsim⟩, hwait, h.caller, h.pending⟩
  | store => exact ⟨x, .idle rfl rfl, ⟨a, keep rfl, hsim⟩, hwait, h.caller, h.pending⟩
  | @skip c op queue k res idle first =>
    obtain ⟨y, hact, hy⟩ := finish c op res rfl
    have hfirst : (c, op) ∈ s.worker.toList ++ s.queue := by simp [first]
    refine ⟨_, .done (h.pending c op hfirst) hact, ?_⟩
    exact h.done op hwait hphase' hy (by simp [idle, first]) rfl
  | @finish c op k res hand =>
    obtain ⟨y, hact, hy⟩ := finish c op res rfl
    have hfirst : (c, op) ∈ s.worker.toList ++ s.queue := by simp [hand]
    refine ⟨_, .done (h.pending c op hfirst) hact, ?_⟩
    exact h.done op hwait hphase' hy (by simp [hand]) rfl
  | @ret c res result =>
    have hx := h.caller_result result
    refine ⟨_, .ret hx, ⟨a, keep rfl, hsim⟩, hwait, fun c' => ?_, fun c' op' hmem => ?_⟩
    · by_cases hc : c' = c
      · subst hc
        simp
      · simpa [hc] using h.caller c'
    · have hne : c' ≠ c := by
        rintro rfl
        simp [h.pending c' op' hmem] at hx
      dsimp only
      rw [Function.update_of_ne hne]
      exact h.pending c' op' hmem

/-- A program over the worker and the nodes is the program over the object. -/
theorem run {program : φ → (γ × (Op ⊕ Res)) ⊕ τ → φ → Prop}
    (acts : ∀ a (entry : γ × Op × Res) a' x, Sim a x → P.Atomic a entry a' →
      ∃ x', act x entry x' ∧ Sim a' x')
    (wait : ∀ a x op k i req k' res, Sim a x → P.start a.1 op k (.inr (i, req)) →
      ¬ P.finish k op k' res)
    (settled : ∀ a x s e t, Sim a x → Phase P a s → P.Step s e t → ok s e →
      Protocol.Settled s e)
    {f f' : φ} {k : κ} {node : ι → σ} {object : X} (start : Sim (k, node) object)
    {events : List (CallEvent γ ι Op Res ⊕ τ)}
    (run : Run (Together program (guarded ok P.Step)) (f, .init k node) events (f', t)) :
    ∃ y, Run (Together program (ObjectStep act)) (f, ⟨fun _ => none, object⟩) events (f', y) ∧
      ServesObject P Sim t y :=
  Together.simulate (fun _ _ _ _ h hs => h.step acts wait settled hs) run (.init start)

end ServesObject

/-! ## One call after the other -/

section

variable {program : φ → (γ × (Op ⊕ Res)) ⊕ τ → φ → Prop} {f f' f'' : φ}

theorem Together.of_hidden {step : S → CallEvent γ ι Op Res → S → Prop} {s s' : S}
    {events : List (CallEvent γ ι Op Res)} (run : Run step s events s')
    (hidden : ∀ e ∈ events, e.seen = none) :
    Run (Together program step) (f, s) (events.map Sum.inl) (f, s') := by
  induction run with
  | refl => exact .refl _
  | snoc run hs ih =>
    rw [List.map_append, List.map_singleton]
    apply Run.snoc (ih fun e he => hidden e (List.mem_append_left _ he))
    exact .hidden (hidden _ (by simp)) hs

/-- A program that makes one call. -/
theorem Together.alone [DecidableEq γ] [DecidableEq ι]
    {P : Protocol ι κ σ Op Res Req Rep St}
    {ok : CallState γ ι κ σ Op Res Req Rep St → CallEvent γ ι Op Res → Prop}
    (settled : ∀ s e, Protocol.Settled s e → ok s e) {k : κ} {node : ι → σ} {a : κ × (ι → σ)}
    {c : γ} {op : Op} {res : Res} (h : P.Atomic (k, node) (c, op, res) a)
    (call : program f (.inl (c, .inl op)) f') (ret : program f' (.inl (c, .inr res)) f'') :
    ∃ events : List (CallEvent γ ι Op Res ⊕ τ), events.filterMap Sum.getRight? = [] ∧
      Run (Together program (guarded ok P.Step)) (f, .init k node) events
        (f'', .init a.1 a.2) := by
  have hcall : Function.update (fun _ : γ => (none : Option (Option Res))) c (some none) c =
      some none := Function.update_self ..
  obtain ⟨events, -, hidden, run⟩ :=
    h.performed (Function.update (fun _ => none) c (some none)) []
  have first : P.Step (.init k node) (.call c op)
      (.resting (Function.update (fun _ => none) c (some none)) [(c, op)] k node) :=
    Protocol.step_call rfl
  have last : P.Step
      (.resting (Function.update (fun _ => none) c (some (some res))) [] a.1 a.2) (.ret c res)
      (.resting (Function.update (Function.update (fun _ => none) c (some (some res))) c none) []
        a.1 a.2) :=
    Protocol.step_ret (Function.update_self ..)
  rw [Function.update_idem] at run
  rw [Function.update_idem, Function.update_eq_self_iff.mpr rfl] at last
  have run : Run (guarded ok P.Step)
      (.resting (Function.update (fun _ => none) c (some none)) [(c, op)] k node) events
      (.resting (Function.update (fun _ => none) c (some (some res))) [] a.1 a.2) :=
    run.mono fun s e t hs => ⟨settled s e hs.1, hs.2⟩
  have hidden : ∀ e ∈ events, e.seen = none := fun e he => CallEvent.seen_eq_none (hidden e he)
  refine ⟨_, ?_, (Run.cons (.seen rfl call ⟨settled _ _ fun _ _ _ he => (by cases he), first⟩)
    (Together.of_hidden run hidden)).trans
    (.single (.seen rfl ret ⟨settled _ _ fun _ _ _ he => (by cases he), last⟩))⟩
  simp only [List.cons_append, List.filterMap_eq_nil_iff, List.mem_cons, List.mem_append,
    List.mem_map, List.not_mem_nil, or_false]
  rintro _ (rfl | ⟨e, -, rfl⟩ | rfl) <;> rfl

end

end Library
