import ModuleAudit.Framework.Version
import ModuleAudit.Module
import ModuleAudit.TypeDef.Wellformed

/-!
# Drafts of modules

A module is put together type by type. Types and members that come without a token get the next free
row of their table. When the draft is finished, its types become a registry of a world.

## Main definitions

* `Draft`: a module in the making, with the next free row of each table.
* `Rows.number`: rows for the null tokens of a list, in order.
* `Draft.number`, `Draft.add`, `Draft.define`: the ways in which a draft grows.
* `Draft.finish`: the module of a draft.

## Design notes

Rows are handed out before anything is checked, and a type that is refused keeps the rows of its
members: the next free rows of methods and fields never go back. The next free row of a table can lie
just behind its last row; numbering then yields row zero, since a token has no room for more.
-/

namespace ModuleAudit

namespace Rows

/-- A token, or the token of the given row where it is null. -/
def fill (table : UInt8) (row : Nat) (token : Token) : Token :=
  if token.isNull then .ofParts table row else token

def next (row : Nat) (used : Token) : Nat := max row (used.row + 1)

/-- Rows of a table for the null tokens of a list, from the given row on, and the next free row
behind them all. A token that is not null stays, but no later row is below it. -/
def number (table : UInt8) : Nat → List Token → List Token × Nat
  | row, [] => ([], row)
  | row, token :: rest =>
    let used := fill table row token
    let (tokens, last) := number table (next row used) rest
    (used :: tokens, last)

@[simp] theorem length_number (table : UInt8) (row : Nat) (tokens : List Token) :
    (number table row tokens).1.length = tokens.length := by
  induction tokens generalizing row with
  | nil => rfl
  | cons token rest ih => simp [number, ih]

theorem le_number (table : UInt8) (row : Nat) (tokens : List Token) :
    row ≤ (number table row tokens).2 := by
  induction tokens generalizing row with
  | nil => exact Nat.le_refl _
  | cons token rest ih => exact Nat.le_trans (Nat.le_max_left _ _) (ih _)

end Rows

/-- A module in the making. `nextType`, `nextMethod` and `nextField` are the next free rows of the
three tables, and `inUse` holds the tokens of the members of all registered types. -/
structure Draft where
  name : String
  framework : Framework
  registry : Registry
  nextType : Nat
  nextMethod : Nat
  nextField : Nat
  inUse : List Token

namespace Draft

/-- A draft without types. Rows are counted from one. -/
def empty (name : String) (framework : Framework) : Draft :=
  ⟨name, framework, .empty, 1, 1, 1, []⟩

def ofVersion (name version : String) : Except MetadataError Draft :=
  (Framework.ofVersion version).map (empty name)

/-- A type with tokens for all that came without one, and the draft with the rows of its members
handed out. The row of the type itself is free until the type is registered. -/
def number (d : Draft) (t : TypeDef) : TypeDef × Draft :=
  let (methodTokens, nextMethod) :=
    Rows.number Table.methodDef d.nextMethod (t.methods.map (·.token))
  let (fieldTokens, nextField) := Rows.number Table.field d.nextField (t.fields.map (·.token))
  ({ t with
      token := Rows.fill Table.typeDef d.nextType t.token
      methods := t.methods.zipWith (fun m token => { m with token }) methodTokens
      fields := t.fields.zipWith (fun f token => { f with token }) fieldTokens },
    { d with nextMethod, nextField })

/-- Registers a numbered type, if neither its token nor a token of its members is in use. -/
def register (d : Draft) (t : TypeDef) : Except MetadataError Draft :=
  match t.memberTokens.find? (· ∈ d.inUse) with
  | some token => .error (.memberTokenInUse token t.name d.name)
  | none =>
    match d.registry.insert t with
    | .error e => .error e
    | .ok registry => .ok { d with
        registry
        nextType := Rows.next d.nextType t.token
        inUse := d.inUse ++ t.memberTokens }

/-- Adds a type: the type as it is registered or the cause why it is not, and the draft thereafter,
in which the rows of the members are handed out in either case. -/
def add (d : Draft) (t : TypeDef) : Except MetadataError TypeDef × Draft :=
  let (t, d) := d.number t
  match d.register t with
  | .error e => (.error e, d)
  | .ok d => (.ok t, d)

/-- Adds a type whose definition is well formed, and tells how other types refer to it. -/
def define (d : Draft) (t : TypeDef) : Except MetadataError TypeRef × Draft :=
  match t.checked with
  | .error e => (.error e, d)
  | .ok t =>
    match d.add t with
    | (.error e, d) => (.error e, d)
    | (.ok t, d) => (.ok t.toRef, d)

def depend (d : Draft) (assembly : String) (on : Module) : Draft :=
  { d with registry := d.registry.link assembly on.registry }

def finish (d : Draft) (w : World) : Module × World :=
  let (registry, w) := w.add d.registry
  (⟨d.name, d.framework, registry⟩, w)

end Draft

end ModuleAudit
