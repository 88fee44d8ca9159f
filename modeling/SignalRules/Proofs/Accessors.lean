import SignalRules.Proofs.Execution

/-!
# Accessors

A host hands out accessors for the names that it declares: a source for a signal or a property, and
an executor for an action. Looking one up asks for the declaration first, and using it later asks
first whether the name is switched off. The two agree as long as the name is declared, and no step
of a host takes a declaration away. So an accessor does at any later time what one that is looked up
at that time does.

## Main definitions

* `Host.declared`, `Host.present`: how a name is looked up and how it is used, for every kind of
  declaration.
* `Host.signalSource`, `Host.propertySource`, `Host.actionExecutor`: the accessors.
* `Host.Retains`: a host still declares what another one did.

## Main results

* `Host.retains_of_steps`: a host never forgets a name.
* `Host.accessors_eq_afresh`: captured accessors never go stale.
* `Expr.value_signal_afresh`, `Expr.value_property_afresh`, `Expr.execute_afresh`: expressions that
  were built earlier read and call the host as if they looked up their names afresh.
-/

namespace SignalRules

@[simp] theorem NameMap.contains_insert {α : Type} (m : NameMap α) (key name : String) (a : α) :
    (m.insert key a).contains name = (decide (name = key) || m.contains name) := by
  rw [contains, get?_insert]
  by_cases hname : name = key <;> simp [hname, contains]

namespace Host

variable {h h' : Host}

/-! ### Looking up and using -/

section Kinds

variable {δ β : Type} {m : NameMap (δ × β)} {unknown : Notice} {name : String} {d : δ} {b : β}

/-- Look up a declaration: an unknown name is reported before one that is switched off. -/
def declared (h : Host) (m : NameMap (δ × β)) (unknown : Notice) (name : String) :
    Except Notice δ :=
  match m.get? name with
  | none => .error unknown
  | some (d, _) => do
    h.checkAvailable name
    return d

/-- Use what a declaration comes with: a name that is switched off is reported before an unknown
one. -/
def present (h : Host) (m : NameMap (δ × β)) (unknown : Notice) (name : String) :
    Except Fault β := do
  (h.checkAvailable name).mapError Fault.ofState
  match m.get? name with
  | none => .error (Fault.ofState unknown)
  | some (_, b) => return b

/-- A result for a name, unless the name is switched off. -/
def ifAvailable {α : Type} (h : Host) (name : String) (a : α) : Except Fault α :=
  if h.unavailable.contains name then .error (Fault.ofState (.unavailable name)) else .ok a

theorem isOk_declared (h : Host) (m : NameMap (δ × β)) (unknown : Notice) (name : String) :
    (h.declared m unknown name).isOk = (m.contains name && !h.unavailable.contains name) := by
  unfold declared checkAvailable NameMap.contains
  cases m.get? name with
  | none => rfl
  | some found => cases h.unavailable.contains name <;> rfl

theorem present_eq (hget : m.get? name = some (d, b)) :
    h.present m unknown name = h.ifAvailable name b := by
  unfold present checkAvailable ifAvailable
  rw [hget]
  cases h.unavailable.contains name <;> rfl

end Kinds

/-! ### The three kinds -/

theorem signal?_eq_declared (h : Host) (name : String) :
    h.signal? name = h.declared h.signals (.unknownSignal name) name := by
  unfold signal? declared
  cases h.signals.get? name <;> rfl

theorem action?_eq_declared (h : Host) (name : String) :
    h.action? name = h.declared h.actions (.unknownAction name) name := by
  unfold action? declared
  cases h.actions.get? name <;> rfl

theorem property?_eq_declared (h : Host) (reference : String) :
    h.property? reference = h.declared h.properties (.unknownProperty reference) reference := by
  unfold property? declared
  cases h.properties.get? reference <;> rfl

theorem readSignal_eq_present (h : Host) (name : String) :
    h.readSignal name = h.present h.signals (.unknownSignal name) name := by
  unfold readSignal present
  cases h.signals.get? name <;> rfl

theorem readProperty_eq_present (h : Host) (reference : String) :
    h.readProperty reference = h.present h.properties (.unknownProperty reference) reference := by
  unfold readProperty present
  cases h.properties.get? reference <;> rfl

theorem record_eq_present (h : Host) (name : String) (args : List Value) :
    h.record name args = (h.present h.actions (.unknownAction name) name).map
      fun rs => (h.recorded ⟨name, args⟩, rs) := by
  unfold record present checkAvailable
  cases h.unavailable.contains name <;> cases h.actions.get? name <;> rfl

/-! ### Accessors -/

section Capture

variable {δ α β : Type} {found : Except Notice δ}

/-- An accessor is handed out if a declaration is found. -/
def capture (found : Except Notice δ) (access : α) : Except Notice α := do
  let _ ← found
  return access

/-- Look up an accessor and use it at once. -/
def afresh (h : Host) (lookup : Except Notice (Host → Except Fault α)) : Except Fault α := do
  let access ← lookup.mapError Fault.ofState
  access h

theorem capture_eq_ok_iff {access access' : α} :
    capture found access = .ok access' ↔ found.isOk ∧ access' = access := by
  cases found with
  | error notice => exact ⟨nofun, nofun⟩
  | ok d =>
    refine ⟨fun heq => ⟨rfl, (Except.ok.inj heq).symm⟩, ?_⟩
    rintro ⟨-, rfl⟩
    rfl

theorem isOk_capture (access : α) : (capture found access).isOk = found.isOk := by
  cases found <;> rfl

theorem map_capture (access : α) (f : α → β) :
    (capture found access).map f = capture found (f access) := by
  cases found <;> rfl

/-- A name that is declared can be looked up unless it is switched off, so an accessor that heeds
this is as good as a fresh one. -/
theorem afresh_capture {m : NameMap (δ × β)} {unknown : Notice} {name : String} {d : δ} {b : β}
    (hget : m.get? name = some (d, b)) {access : Host → Except Fault α} {a : α}
    (haccess : access h = h.ifAvailable name a) :
    h.afresh (capture (h.declared m unknown name) access) = access h := by
  unfold ifAvailable at haccess
  unfold declared checkAvailable
  rw [hget]
  split_ifs at haccess ⊢
  · exact haccess.symm
  · rfl

end Capture

/-- The accessor of a signal: reading the signal from the host as it is then. -/
def signalSource (h : Host) (name : String) : Except Notice (Host → Except Fault Value) :=
  capture (h.signal? name) fun now => now.readSignal name

/-- The accessor of a property: reading the property from the host as it is then. -/
def propertySource (h : Host) (reference : String) :
    Except Notice (Host → Except Fault Contents) :=
  capture (h.property? reference) fun now => now.readProperty reference

/-- The accessor of an action: calling the action of the host as it is then. -/
def actionExecutor (h : Host) (name : String) :
    Except Notice (List Value → Host → Except Fault (Host × List Reaction)) :=
  capture (h.action? name) fun args now => now.record name args

theorem hasSignal_eq_isOk (h : Host) (name : String) :
    h.hasSignal name = (h.signalSource name).isOk := by
  rw [signalSource, isOk_capture, signal?_eq_declared, isOk_declared]
  rfl

theorem hasAction_eq_isOk (h : Host) (name : String) :
    h.hasAction name = (h.actionExecutor name).isOk := by
  rw [actionExecutor, isOk_capture, action?_eq_declared, isOk_declared]
  rfl

/-! ### Names stay declared -/

/-- Every name that one host declares, another one still declares. -/
structure Retains (h h' : Host) : Prop where
  signals : ∀ name, h.signals.contains name → h'.signals.contains name
  actions : ∀ name, h.actions.contains name → h'.actions.contains name
  properties : ∀ name, h.properties.contains name → h'.properties.contains name

namespace Retains

/-- A host with the same declarations. -/
theorem same (hsignals : h'.signals = h.signals) (hactions : h'.actions = h.actions)
    (hproperties : h'.properties = h.properties) : h.Retains h' :=
  ⟨fun _ => hsignals ▸ id, fun _ => hactions ▸ id, fun _ => hproperties ▸ id⟩

theorem trans {h'' : Host} (hr : h.Retains h') (hr' : h'.Retains h'') : h.Retains h'' where
  signals name hname := hr'.signals name (hr.signals name hname)
  actions name hname := hr'.actions name (hr.actions name hname)
  properties name hname := hr'.properties name (hr.properties name hname)

theorem insertSignal (h : Host) (name : String) (entry : Signal × Value) :
    h.Retains { h with signals := h.signals.insert name entry } :=
  ⟨by simp +contextual, fun _ => id, fun _ => id⟩

theorem insertAction (h : Host) (name : String) (entry : Action × List Reaction) :
    h.Retains { h with actions := h.actions.insert name entry } :=
  ⟨fun _ => id, by simp +contextual, fun _ => id⟩

theorem insertProperty (h : Host) (reference : String) (entry : Property × Contents) :
    h.Retains { h with properties := h.properties.insert reference entry } :=
  ⟨fun _ => id, fun _ => id, by simp +contextual⟩

end Retains

/-- No step takes a name away: declaring and setting insert an entry, and the other steps leave the
declarations as they are. -/
theorem Step.retains (hstep : Step h h') : h.Retains h' := by
  cases hstep with
  | addSignal s v => exact .insertSignal h s.name (s, v)
  | addAction a => exact .insertAction h a.name (a, [])
  | addProperty p c => exact .insertProperty h p.reference (p, c)
  | setSignal hset =>
    unfold Host.setSignal at hset
    split at hset
    · cases hset
    · cases hset
      exact .insertSignal h _ _
  | setProperty hset =>
    unfold Host.setProperty at hset
    split at hset
    · cases hset
    · cases hset
      exact .insertProperty h _ _
  | setAvailable name available =>
    unfold Host.setAvailable
    split_ifs <;> exact .same rfl rfl rfl
  | record hrecord =>
    rw [record_eq_present] at hrecord
    obtain ⟨rs, -, hrecord⟩ := map_eq_ok_iff.1 hrecord
    cases hrecord
    exact .same rfl rfl rfl
  | clearCalls => exact .same rfl rfl rfl

/-- A host never forgets a name. -/
theorem retains_of_steps (hsteps : Relation.ReflTransGen Step h h') : h.Retains h' := by
  induction hsteps with
  | refl => exact .same rfl rfl rfl
  | tail _ hstep ih => exact ih.trans hstep.retains

/-! ### Accessors stay fresh -/

variable {h₀ : Host}

/-- An accessor of a signal does what a fresh one does: it reads the present value, unless the name
is switched off. -/
theorem signalSource_eq_afresh (hsince : Relation.ReflTransGen Step h₀ h) {name : String}
    {source : Host → Except Fault Value} (hsource : h₀.signalSource name = .ok source) :
    source h = h.afresh (h.signalSource name) ∧
      ∃ s v, h.signals.get? name = some (s, v) ∧ source h = h.ifAvailable name v := by
  obtain ⟨hfound, rfl⟩ := capture_eq_ok_iff.1 hsource
  rw [signal?_eq_declared, isOk_declared, Bool.and_eq_true] at hfound
  obtain ⟨⟨s, v⟩, hget⟩ :=
    Option.isSome_iff_exists.1 ((retains_of_steps hsince).signals name hfound.1)
  have huse : h.readSignal name = h.ifAvailable name v := by
    rw [readSignal_eq_present, present_eq hget]
  rw [signalSource, signal?_eq_declared, afresh_capture hget huse]
  exact ⟨rfl, s, v, hget, huse⟩

/-- An accessor of a property does what a fresh one does: it reads what the property holds at
present, unless the name is switched off. -/
theorem propertySource_eq_afresh (hsince : Relation.ReflTransGen Step h₀ h) {reference : String}
    {source : Host → Except Fault Contents} (hsource : h₀.propertySource reference = .ok source) :
    source h = h.afresh (h.propertySource reference) ∧
      ∃ p c, h.properties.get? reference = some (p, c) ∧
        source h = h.ifAvailable reference c := by
  obtain ⟨hfound, rfl⟩ := capture_eq_ok_iff.1 hsource
  rw [property?_eq_declared, isOk_declared, Bool.and_eq_true] at hfound
  obtain ⟨⟨p, c⟩, hget⟩ :=
    Option.isSome_iff_exists.1 ((retains_of_steps hsince).properties reference hfound.1)
  have huse : h.readProperty reference = h.ifAvailable reference c := by
    rw [readProperty_eq_present, present_eq hget]
  rw [propertySource, property?_eq_declared, afresh_capture hget huse]
  exact ⟨rfl, p, c, hget, huse⟩

/-- An accessor of an action does what a fresh one does: on a quiet host it records the call, unless
the name is switched off. -/
theorem actionExecutor_eq_afresh (hquiet : h₀.Quiet) (hsince : Relation.ReflTransGen Step h₀ h)
    {name : String} {execute : List Value → Host → Except Fault (Host × List Reaction)}
    (hexecute : h₀.actionExecutor name = .ok execute) (args : List Value) :
    execute args h = h.afresh ((h.actionExecutor name).map fun execute => execute args) ∧
      execute args h = h.ifAvailable name (h.recorded ⟨name, args⟩, []) := by
  obtain ⟨hfound, rfl⟩ := capture_eq_ok_iff.1 hexecute
  rw [action?_eq_declared, isOk_declared, Bool.and_eq_true] at hfound
  obtain ⟨⟨a, rs⟩, hget⟩ :=
    Option.isSome_iff_exists.1 ((retains_of_steps hsince).actions name hfound.1)
  obtain rfl := quiet_of_steps hsince hquiet name a rs hget
  have huse : h.record name args = h.ifAvailable name (h.recorded ⟨name, args⟩, []) := by
    rw [record_eq_present, present_eq hget]
    unfold ifAvailable
    split_ifs <;> rfl
  rw [actionExecutor, map_capture, action?_eq_declared, afresh_capture hget huse]
  exact ⟨rfl, huse⟩

/-- Captured accessors never go stale. In every state of a host whose actions do nothing, each
declaration is filed under its own name and the checks for names agree with looking up accessors.
An accessor that was looked up in an earlier state does what a fresh one does: it gives the present
value or records the call, or it reports that the name is switched off. -/
theorem accessors_eq_afresh (hstart : Relation.ReflTransGen Step .empty h₀)
    (hsince : Relation.ReflTransGen Step h₀ h) :
    h.Keyed ∧
    (∀ name, h.hasSignal name = (h.signalSource name).isOk ∧
      h.hasAction name = (h.actionExecutor name).isOk) ∧
    (∀ name source, h₀.signalSource name = .ok source →
      source h = h.afresh (h.signalSource name) ∧
      ∃ s v, h.signals.get? name = some (s, v) ∧ source h = h.ifAvailable name v) ∧
    (∀ reference source, h₀.propertySource reference = .ok source →
      source h = h.afresh (h.propertySource reference) ∧
      ∃ p c, h.properties.get? reference = some (p, c) ∧
        source h = h.ifAvailable reference c) ∧
    ∀ name execute, h₀.actionExecutor name = .ok execute → ∀ args,
      execute args h = h.afresh ((h.actionExecutor name).map fun execute => execute args) ∧
      execute args h = h.ifAvailable name (h.recorded ⟨name, args⟩, []) := by
  have hquiet : h₀.Quiet := quiet_of_steps hstart quiet_empty
  refine ⟨(reachable_of_steps (hstart.trans hsince) .empty).keyed, fun name => ?_, ?_, ?_, ?_⟩
  · exact ⟨hasSignal_eq_isOk h name, hasAction_eq_isOk h name⟩
  · exact fun name source hsource => signalSource_eq_afresh hsince hsource
  · exact fun reference source hsource => propertySource_eq_afresh hsince hsource
  · exact fun name execute hexecute args => actionExecutor_eq_afresh hquiet hsince hexecute args

/-- The lift is switched off after its accessors were looked up. -/
theorem accessors_eq_afresh_liftHost :
    Relation.ReflTransGen Step .empty liftHost ∧
    Relation.ReflTransGen Step liftHost (liftHost.setAvailable "Lift" false) ∧
    ∃ source execute, liftHost.signalSource "Lift" = .ok source ∧
      liftHost.actionExecutor "Go" = .ok execute ∧
      source (liftHost.setAvailable "Lift" false) =
        .error (Fault.ofState (.unavailable "Lift")) ∧
      execute [] (liftHost.setAvailable "Lift" false) =
        .ok ((liftHost.setAvailable "Lift" false).recorded ⟨"Go", []⟩, []) := by
  have hsince : Relation.ReflTransGen Step liftHost (liftHost.setAvailable "Lift" false) :=
    .single (.setAvailable _ _ _)
  obtain ⟨source, hsource⟩ : ∃ source, liftHost.signalSource "Lift" = .ok source := ⟨_, rfl⟩
  obtain ⟨execute, hexecute⟩ : ∃ execute, liftHost.actionExecutor "Go" = .ok execute := ⟨_, rfl⟩
  obtain ⟨-, -, hsignals, -, hactions⟩ := accessors_eq_afresh steps_liftHost hsince
  obtain ⟨-, _, _, -, hread⟩ := hsignals "Lift" source hsource
  obtain ⟨-, hcall⟩ := hactions "Go" execute hexecute []
  exact ⟨steps_liftHost, hsince, source, execute, hsource, hexecute, hread, hcall⟩

end Host

/-! ### What expressions read -/

namespace Expr

variable {h₀ h : Host}

/-- A signal of an expression that was built earlier is read as if it were looked up afresh, and
then brought to its type and validated as declared. -/
theorem value_signal_afresh (hk : h₀.Keyed) (hsince : Relation.ReflTransGen Host.Step h₀ h)
    {name : String} {s : Signal} (hs : h₀.signal? name = .ok s) (span : Span) (es : List Expr) :
    (node span (.signal s) es).value h = do
      let raw ← h.afresh (h.signalSource name)
      let value ← raw.coerce s.type
      s.validator.check s.name value
      return value := by
  have hsource : h₀.signalSource name = .ok fun now => now.readSignal name := by
    rw [Host.signalSource, hs]
    rfl
  rw [← (Host.signalSource_eq_afresh hsince hsource).1, value, Host.signalValue,
    hk.name_signal hs]

/-- A property of an expression that was built earlier is read as if it were looked up afresh. -/
theorem value_property_afresh (hk : h₀.Keyed) (hsince : Relation.ReflTransGen Host.Step h₀ h)
    {reference : String} {p : Property} (hp : h₀.property? reference = .ok p) (mode : PropertyMode)
    (span : Span) (es : List Expr) :
    (node span (.property mode p) es).value h = (do
      let contents ← h.afresh (h.propertySource reference)
      match mode with
      | .value type => contents.single.coerce type
      | .length => return .number (Fixed.ofUnits contents.elements.length)
      | .element type => do
        let index ← firstUnits h es
        elementAt p type contents.elements index) := by
  have hsource : h₀.propertySource reference = .ok fun now => now.readProperty reference := by
    rw [Host.propertySource, hp]
    rfl
  have hread := (Host.propertySource_eq_afresh hsince hsource).1
  cases mode <;> rw [← hread, value, hk.reference_property hp]

/-- An action of an expression that was built earlier is called as if it were looked up afresh. -/
theorem execute_afresh (hk : h₀.Keyed) (hquiet : h₀.Quiet)
    (hsince : Relation.ReflTransGen Host.Step h₀ h) {name : String} {a : Action}
    (ha : h₀.action? name = .ok a) (once : Bool) (span : Span) (es : List Expr) :
    (node span (.action a once) es).execute h = do
      let args ← arguments h a 0 es
      let (h', _) ← h.afresh ((h.actionExecutor name).map fun execute => execute args)
      return (h', ⟨once⟩) := by
  have hexecute : h₀.actionExecutor name = .ok fun args now => now.record name args := by
    rw [Host.actionExecutor, ha]
    rfl
  simp only [← (Host.actionExecutor_eq_afresh hquiet hsince hexecute _).1, execute, request,
    hk.name_action ha, bind_assoc]
  rfl

end Expr

end SignalRules
