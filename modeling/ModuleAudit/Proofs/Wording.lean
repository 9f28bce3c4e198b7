import ModuleAudit.Error

/-!
# What a wording shows

Whatever a type or a member is refused for, the token that it is refused for can be read in the wording
of the cause.

## Main definitions

* `Token.ShownIn`: a text shows a token.
* `MetadataError.token?`: the token that something is refused for.

## Main statements

* `MetadataError.shownIn_message`: the wording of a cause shows the token.
-/

namespace ModuleAudit

def Token.ShownIn (x : Token) (text : String) : Prop := ∃ before after, text = before ++ x.text ++ after

namespace Token.ShownIn

variable {x : Token} {text : String}

theorem self (x : Token) : x.ShownIn x.text :=
  ⟨"", "", by rw [String.append_empty, String.empty_append]⟩

theorem append_left (h : x.ShownIn text) (front : String) : x.ShownIn (front ++ text) := by
  obtain ⟨before, after, rfl⟩ := h
  exact ⟨front ++ before, after, by simp only [String.append_assoc]⟩

theorem append_right (h : x.ShownIn text) (back : String) : x.ShownIn (text ++ back) := by
  obtain ⟨before, after, rfl⟩ := h
  exact ⟨before, after ++ back, by simp only [String.append_assoc]⟩

end Token.ShownIn

namespace MetadataError

open Token.ShownIn (self)

/-- The token that a type or a member is refused for. -/
def token? : MetadataError → Option Token
  | unknownFramework _ => none
  | wrongMemberTable member _ => some member.token
  | repeatedMemberToken member _ => some member.token
  | memberTokenInUse token _ _ => some token
  | notADefinition token _ => some token
  | typeTokenInUse token => some token

/-- The wording of a cause shows the token. -/
theorem shownIn_message {e : MetadataError} {x : Token} (h : e.token? = some x) :
    x.ShownIn e.message := by
  cases e with
  | unknownFramework => cases h
  | wrongMemberTable member owner =>
    cases h
    show member.token.ShownIn (wrongTableText member owner)
    unfold wrongTableText
    split <;> exact (self _).append_left _
  | repeatedMemberToken member owner =>
    cases h
    show member.token.ShownIn (repeatedText member owner)
    unfold repeatedText
    split <;> exact ((((self _).append_left _).append_right _).append_right _).append_right _
  | memberTokenInUse token owner module =>
    cases h
    show x.ShownIn s!"Member token {x.text} of '{owner.text}' is already used in module '{module}'"
    have htoken := ((self x).append_left "Member token ").append_right " of '"
    exact (((htoken.append_right _).append_right _).append_right _).append_right _
  | notADefinition token type =>
    cases h
    show x.ShownIn s!"Type '{type.text}' has invalid TypeDef token {x.text}"
    exact (self x).append_left _
  | typeTokenInUse token =>
    cases h
    show x.ShownIn s!"Failed to insert new type into TypeRegistry - {x.text}"
    exact (self x).append_left _

end MetadataError

end ModuleAudit
