import BlockAffinity.Text.Blank
import BlockAffinity.Text.Case

/-!
# BlockAffinity.Block

**Blocks and what is observed in them.** A basic block is known by its id alone. Each instruction
of a block contributes a mnemonic and up to two operands; an observation is one such token with
the block it was seen in and the role it played.
-/

namespace BlockAffinity

/-- The id of a basic block. -/
structure BlockId where
  text : String
  deriving Repr, DecidableEq, Inhabited

/-- A mnemonic or an operand, as text. -/
abbrev Token := String

/-- The part of an instruction that a token is taken from. -/
inductive Role
  | instruction
  | leftOperand
  | rightOperand
  deriving Repr, DecidableEq, Inhabited

namespace Role

/-- The roles in the order of the tables. -/
def all : List Role := [instruction, leftOperand, rightOperand]

/-- The name of a role in tables. -/
def label : Role → String
  | instruction => "Instruction"
  | leftOperand => "Left Operand"
  | rightOperand => "Right Operand"

/-- A character that the name of a role is read without. -/
def isSeparator (c : Char) : Bool := Text.isBlankChar c || c == '_' || c == '-'

/-- The role that a text names. Case, blanks, underscores and hyphens do not matter. -/
def ofText? (text : String) : Option Role :=
  let name := Text.lower (String.ofList (text.toList.filter fun c => !isSeparator c))
  if name = "instruction" then some instruction
  else if name = "leftoperand" then some leftOperand
  else if name = "rightoperand" then some rightOperand
  else none

theorem mem_all (role : Role) : role ∈ all := by cases role <;> simp [all]

end Role

/-- One occurrence of a token in a block. -/
structure Observation where
  block : BlockId
  role : Role
  token : Token
  deriving Repr, DecidableEq, Inhabited

/-- A value for each role. -/
structure PerRole (β : Type) where
  instruction : β
  leftOperand : β
  rightOperand : β
  deriving Repr, DecidableEq

namespace PerRole

variable {β γ : Type}

/-- The value of a role. -/
def get (p : PerRole β) : Role → β
  | .instruction => p.instruction
  | .leftOperand => p.leftOperand
  | .rightOperand => p.rightOperand

/-- Replaces the value of a role. -/
def set (p : PerRole β) (role : Role) (value : β) : PerRole β :=
  match role with
  | .instruction => { p with instruction := value }
  | .leftOperand => { p with leftOperand := value }
  | .rightOperand => { p with rightOperand := value }

/-- Changes the value of a role. -/
def modify (p : PerRole β) (role : Role) (f : β → β) : PerRole β := p.set role (f (p.get role))

/-- The same value for each role. -/
def replicate (value : β) : PerRole β := ⟨value, value, value⟩

/-- Applies a function to the value of each role. -/
def map (f : β → γ) (p : PerRole β) : PerRole γ := ⟨f p.instruction, f p.leftOperand, f p.rightOperand⟩

@[simp] theorem get_modify (p : PerRole β) (r s : Role) (f : β → β) :
    (p.modify r f).get s = if r = s then f (p.get s) else p.get s := by
  cases r <;> cases s <;> rfl

@[simp] theorem get_replicate (value : β) (role : Role) : (replicate value).get role = value := by
  cases role <;> rfl

@[simp] theorem get_map (f : β → γ) (p : PerRole β) (role : Role) :
    (p.map f).get role = f (p.get role) := by
  cases role <;> rfl

/-- Two families that agree at every role are equal. -/
theorem ext_get {p q : PerRole β} (h : ∀ role, p.get role = q.get role) : p = q := by
  cases p
  cases q
  have h1 := h .instruction
  have h2 := h .leftOperand
  have h3 := h .rightOperand
  simp only [get] at h1 h2 h3
  rw [h1, h2, h3]

end PerRole

end BlockAffinity
