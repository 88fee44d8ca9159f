import SignalRules.ParseError

/-!
# Why a source is refused

A source is refused because it cannot be read, because what was read does not fit its role, or
because a guard in it does not hold. The last is not a defect of the source.

## Main definitions

* `SourceError`, with its text, its localization key, its code and its label.
-/

namespace SignalRules

/-- Why a source gives no expression. -/
inductive SourceError where
  /-- It cannot be read. -/
  | parse (error : ParseError)
  /-- What was read does not fit its role. -/
  | role (id : MessageId) (span : Span)
  /-- The guard with this text does not hold. -/
  | precondition (guard : String)
deriving DecidableEq, Inhabited

namespace SourceError

/-- The notice of a refusal, if it has one that can be localized. -/
def notice? : SourceError → Option Notice
  | parse e => e.cause.notice?
  | role id _ => some ⟨id, []⟩
  | precondition guard => some ⟨.preconditionNotSatisfied, [guard]⟩

/-- The English text. -/
def message (e : SourceError) : String :=
  match e with
  | parse e => e.cause.message
  | role id _ => (Notice.mk id []).text
  | precondition guard => (Notice.mk .preconditionNotSatisfied [guard]).text

/-- The text under a catalog. Texts about the form of the source are not localized. -/
def render (catalog : Catalog) (e : SourceError) : String :=
  match e.notice? with
  | some notice => notice.render catalog
  | none => e.message

/-- The place in the source, if it is known. -/
def span? : SourceError → Option Span
  | parse e => e.span
  | role _ span => some span
  | precondition _ => none

/-- The public code. -/
def code : SourceError → String
  | parse e => e.cause.kind.code
  | role id _ => id.key
  | precondition _ => MessageId.preconditionNotSatisfied.key

/-- The label to put at the place in the source. -/
def label : SourceError → String
  | parse e => e.cause.kind.label
  | _ => "here"

/-- The refusal seen from a larger source that the text was cut from. -/
def shift (e : SourceError) (delta : Nat) : SourceError :=
  match e with
  | parse e => parse (e.shift delta)
  | other => other

end SourceError

end SignalRules
