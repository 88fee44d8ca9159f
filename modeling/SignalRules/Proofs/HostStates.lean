import SignalRules.Host
import SignalRules.Proofs.Erasure

/-!
# The states of a host

A host starts without declarations and changes by declaring, updating, switching names on and off,
and receiving calls. In every state that it can be in, a declaration is filed under its own name,
so what a name resolves to bears that name.

## Main definitions

* `Host.Reachable`: the states that a host can be in.
* `Host.Keyed`: declarations are filed under their own names.

## Main results

* `Host.Reachable.keyed`: they are in every reachable state.
-/

namespace SignalRules.Host

/-- The states that a host can be in. -/
inductive Reachable : Host → Prop
  | empty : Reachable empty
  | addSignal {h : Host} (hh : Reachable h) (s : Signal) (v : Value) : Reachable (h.addSignal s v)
  | addAction {h : Host} (hh : Reachable h) (a : Action) (rs : List Reaction) :
      Reachable (h.addAction a rs)
  | addProperty {h : Host} (hh : Reachable h) (p : Property) (c : Contents) :
      Reachable (h.addProperty p c)
  | setSignal {h h' : Host} (hh : Reachable h) {name : String} {v : Value}
      (hset : h.setSignal name v = .ok h') : Reachable h'
  | setProperty {h h' : Host} (hh : Reachable h) {reference : String} {c : Contents}
      (hset : h.setProperty reference c = .ok h') : Reachable h'
  | setAvailable {h : Host} (hh : Reachable h) (name : String) (available : Bool) :
      Reachable (h.setAvailable name available)
  | record {h h' : Host} (hh : Reachable h) {name : String} {args : List Value}
      {rs : List Reaction} (hrecord : h.record name args = .ok (h', rs)) : Reachable h'
  | clearCalls {h : Host} (hh : Reachable h) : Reachable h.clearCalls

/-- Every declaration is filed under its own name. -/
structure Keyed (h : Host) : Prop where
  signals : ∀ name s v, h.signals.get? name = some (s, v) → s.name = name
  actions : ∀ name a rs, h.actions.get? name = some (a, rs) → a.name = name
  properties : ∀ name p c, h.properties.get? name = some (p, c) → p.reference = name

variable {h h' : Host}

/-- What holds of all entries of a map still holds after an insertion, if it holds of the new
entry. -/
theorem forall_get?_insert {α β : Type} {m : NameMap (α × β)} {P : String → α → β → Prop}
    (hm : ∀ name a b, m.get? name = some (a, b) → P name a b) {key : String} {a : α} {b : β}
    (hnew : P key a b) :
    ∀ name a' b', (m.insert key (a, b)).get? name = some (a', b') → P name a' b' := by
  intro name a' b' hget
  rw [NameMap.get?_insert] at hget
  split_ifs at hget with hname
  · cases hget
    exact hname ▸ hnew
  · exact hm name a' b' hget

theorem Keyed.setSignal (hk : h.Keyed) {name : String} {v : Value}
    (hset : h.setSignal name v = .ok h') : h'.Keyed := by
  unfold Host.setSignal at hset
  cases hget : h.signals.get? name with
  | none => simp [hget] at hset
  | some found =>
    obtain ⟨s, old⟩ := found
    simp only [hget, Except.ok.injEq] at hset
    subst hset
    obtain rfl := hk.signals name s old hget
    exact ⟨forall_get?_insert hk.signals rfl, hk.actions, hk.properties⟩

theorem Keyed.setProperty (hk : h.Keyed) {reference : String} {c : Contents}
    (hset : h.setProperty reference c = .ok h') : h'.Keyed := by
  unfold Host.setProperty at hset
  cases hget : h.properties.get? reference with
  | none => simp [hget] at hset
  | some found =>
    obtain ⟨p, old⟩ := found
    simp only [hget, Except.ok.injEq] at hset
    subst hset
    obtain rfl := hk.properties reference p old hget
    exact ⟨hk.signals, hk.actions, forall_get?_insert hk.properties rfl⟩

theorem Keyed.setAvailable (hk : h.Keyed) (name : String) (available : Bool) :
    (h.setAvailable name available).Keyed := by
  unfold Host.setAvailable
  split_ifs <;> exact ⟨hk.signals, hk.actions, hk.properties⟩

theorem Keyed.record (hk : h.Keyed) {name : String} {args : List Value} {rs : List Reaction}
    (hrecord : h.record name args = .ok (h', rs)) : h'.Keyed := by
  unfold Host.record at hrecord
  obtain ⟨_, -, hrecord⟩ := bind_eq_ok_iff.1 hrecord
  split at hrecord
  · cases hrecord
  · cases hrecord
    exact ⟨hk.signals, hk.actions, hk.properties⟩

/-- In every reachable state, declarations are filed under their own names. -/
theorem Reachable.keyed (hh : h.Reachable) : h.Keyed := by
  induction hh with
  | empty => exact ⟨by simp [Host.empty], by simp [Host.empty], by simp [Host.empty]⟩
  | addSignal _ _ _ ih => exact ⟨forall_get?_insert ih.signals rfl, ih.actions, ih.properties⟩
  | addAction _ _ _ ih => exact ⟨ih.signals, forall_get?_insert ih.actions rfl, ih.properties⟩
  | addProperty _ _ _ ih => exact ⟨ih.signals, ih.actions, forall_get?_insert ih.properties rfl⟩
  | setSignal _ hset ih => exact ih.setSignal hset
  | setProperty _ hset ih => exact ih.setProperty hset
  | setAvailable _ name available ih => exact ih.setAvailable name available
  | record _ hrecord ih => exact ih.record hrecord
  | clearCalls _ ih => exact ⟨ih.signals, ih.actions, ih.properties⟩

/-! ### What names resolve to -/

theorem exists_get?_of_signal? {name : String} {s : Signal} (hs : h.signal? name = .ok s) :
    ∃ v, h.signals.get? name = some (s, v) := by
  unfold signal? at hs
  split at hs
  · cases hs
  · rename_i found v hget
    obtain ⟨_, -, hs⟩ := bind_eq_ok_iff.1 hs
    cases hs
    exact ⟨v, hget⟩

theorem exists_get?_of_action? {name : String} {a : Action} (ha : h.action? name = .ok a) :
    ∃ rs, h.actions.get? name = some (a, rs) := by
  unfold action? at ha
  split at ha
  · cases ha
  · rename_i found rs hget
    obtain ⟨_, -, ha⟩ := bind_eq_ok_iff.1 ha
    cases ha
    exact ⟨rs, hget⟩

theorem exists_get?_of_property? {reference : String} {p : Property}
    (hp : h.property? reference = .ok p) : ∃ c, h.properties.get? reference = some (p, c) := by
  unfold property? at hp
  split at hp
  · cases hp
  · rename_i found c hget
    obtain ⟨_, -, hp⟩ := bind_eq_ok_iff.1 hp
    cases hp
    exact ⟨c, hget⟩

theorem Keyed.name_signal (hk : h.Keyed) {name : String} {s : Signal}
    (hs : h.signal? name = .ok s) : s.name = name := by
  obtain ⟨v, hget⟩ := exists_get?_of_signal? hs
  exact hk.signals name s v hget

theorem Keyed.name_action (hk : h.Keyed) {name : String} {a : Action}
    (ha : h.action? name = .ok a) : a.name = name := by
  obtain ⟨rs, hget⟩ := exists_get?_of_action? ha
  exact hk.actions name a rs hget

theorem Keyed.reference_property (hk : h.Keyed) {reference : String} {p : Property}
    (hp : h.property? reference = .ok p) : p.reference = reference := by
  obtain ⟨c, hget⟩ := exists_get?_of_property? hp
  exact hk.properties reference p c hget

end SignalRules.Host
