import FlowTyping.Parse.Grammar
import FlowTyping.Proofs.Sites

/-!
# What parsing lays down in a tree

The parser numbers nodes and decides by the names in scope which bare names are variables.  `Naming` is
what it keeps for that, and `Expr.Laid` says, on the tree alone, how an expression that was read from
one naming up to another looks: its identities are those that were free, in the order in which the
constructs end, a variable is a name in scope, and names and numbers are such as tokens can spell.

`FlowTyping.Proofs.Readings` shows that every program that parses is laid down in this way.
-/

namespace FlowTyping

/-- The next free identity, and the local names in scope. -/
structure Naming where
  nextId : NodeId
  locals : List LocalScope
deriving DecidableEq

/-- A name that an identifier token spells. -/
def IsName (name : String) : Prop :=
  ∃ c cs, name.toList = c :: cs ∧ Letters.isStart c = true ∧ scanName cs = (cs, []) ∧
    Token.keyword? name = none

/-- An integer literal is not negative: there is no sign. -/
def Literal.Spellable : Literal → Prop
  | int v => 0 ≤ v.toInt
  | _ => True

namespace Naming

/-- Before the first token. -/
def start : Naming := ⟨0, [⟨true, []⟩]⟩

/-- Behind the next identity. -/
def fresh (σ : Naming) : Naming := { σ with nextId := σ.nextId + 1 }

def declare (σ : Naming) (name : String) : Naming :=
  { σ with locals := Cursor.declareIn name σ.locals }

def declareAll (σ : Naming) (params : List Ident) : Naming :=
  params.foldl (fun σ param => σ.declare param.name) σ

def isLocal (σ : Naming) (name : String) : Bool := Cursor.isLocalIn name σ.locals

/-- In a new scope. -/
def enter (σ : Naming) (closed : Bool) : Naming := { σ with locals := ⟨closed, []⟩ :: σ.locals }

/-- Out of the innermost scope. -/
def leave (σ : Naming) : Naming := { σ with locals := σ.locals.drop 1 }

/-- One thing after the other. -/
def Run (R : Naming → α → Naming → Prop) : Naming → List α → Naming → Prop
  | σ, [], τ => τ = σ
  | σ, a :: as, τ => ∃ ρ, R σ a ρ ∧ Run R ρ as τ

/-- A name with the next identity. -/
def Names (σ : Naming) (i : Ident) (τ : Naming) : Prop :=
  IsName i.name ∧ i.id = σ.nextId ∧ τ = σ.fresh

/-- Parameters and a body in a scope of its own. -/
def Scoped (R : Naming → α → Naming → Prop) (closed : Bool) (σ : Naming) (params : List Ident)
    (body : List α) (τ : Naming) : Prop :=
  ∃ ρ υ, Run Names (σ.enter closed) params ρ ∧ Run R (ρ.declareAll params) body υ ∧ τ = υ.leave

variable {R S : Naming → α → Naming → Prop} {σ τ : Naming} {a : α} {as : List α}

@[simp] theorem run_nil : Run R σ [] τ ↔ τ = σ := Iff.rfl

@[simp] theorem run_cons : Run R σ (a :: as) τ ↔ ∃ ρ, R σ a ρ ∧ Run R ρ as τ := Iff.rfl

theorem run_map {f : β → α} {bs : List β} :
    Run R σ (bs.map f) τ ↔ Run (fun σ b τ => R σ (f b) τ) σ bs τ := by
  induction bs generalizing σ with
  | nil => rfl
  | cons b bs ih => exact exists_congr fun ρ => and_congr_right fun _ => ih

end Naming

open Naming

/-! ### Trees -/

section
variable {α : Type} (R : Naming → α → Naming → Prop)

/-- The block of a call, behind the arguments.  Its identity comes behind those inside it. -/
def Block.LaidBy (σ : Naming) : Option (Block α) → Naming → Prop
  | none, τ => τ = σ
  | some b, τ => ∃ ρ, Scoped R false σ b.params b.body ρ ∧ b.id = ρ.nextId ∧ τ = ρ.fresh

/-- A layer with parts that are laid by `R`, the identity of the node apart. -/
def Form.LaidBy (σ : Naming) : Form α → Naming → Prop
  | .literal v, τ => v.Spellable ∧ τ = σ
  | .var name, τ => IsName name ∧ σ.isLocal name = true ∧ τ = σ
  | .assign target value, τ =>
    IsName target.name ∧ target.id = σ.nextId ∧ R (σ.declare target.name).fresh value τ
  | .call name _ args block, τ => IsName name ∧ ∃ ρ, Run R σ args ρ ∧ Block.LaidBy R ρ block τ
  | .yield args, τ => Run R σ args τ
  | .branch cond thenBody elseBody, τ =>
    ∃ ρ υ, R σ cond ρ ∧ Run R ρ thenBody υ ∧ Run R υ (elseBody.getD []) τ
  | .loop cond body, τ => ∃ ρ, R σ cond ρ ∧ Run R ρ body τ
  | .define d, τ =>
    IsName d.name.name ∧ d.name.id = σ.nextId ∧ Scoped R true σ.fresh d.params d.body τ

end

/-- An expression that is read from one naming up to another.  The identity of a node comes behind
those inside it. -/
def Expr.Laid (σ : Naming) (e : Expr) (τ : Naming) : Prop :=
  e.fold (fun id _ form σ τ =>
    ∃ ρ, Form.LaidBy (fun σ laid τ => laid σ τ) σ form ρ ∧ id = ρ.nextId ∧ τ = ρ.fresh) σ τ

/-- Expressions one after the other. -/
abbrev LaidAll : Naming → List Expr → Naming → Prop := Run Expr.Laid

theorem Form.laidBy_map {R : Naming → α → Naming → Prop} {f : β → α} {form : Form β}
    {σ τ : Naming} :
    Form.LaidBy R σ (form.map f) τ ↔ Form.LaidBy (fun σ b τ => R σ (f b) τ) σ form τ := by
  rcases form with v | x | ⟨t, v⟩ | ⟨n, s, args, _ | b⟩ | args | ⟨c, t, _ | e⟩ | ⟨c, b⟩ | d <;>
    simp only [map, LaidBy, Block.LaidBy, Block.map, Definition.map, Scoped, run_map,
      Option.map_none, Option.map_some, Option.getD_none, Option.getD_some, run_nil]

theorem Expr.laid_iff {e : Expr} {σ τ : Naming} :
    e.Laid σ τ ↔ ∃ ρ, Form.LaidBy Expr.Laid σ e.form ρ ∧ e.id = ρ.nextId ∧ τ = ρ.fresh := by
  conv => lhs; rw [eta e, Laid, fold_node]
  exact exists_congr fun ρ => and_congr_left fun _ => Form.laidBy_map

/-- Spans do not matter. -/
theorem Expr.laid_withSpan {e : Expr} {span : Span} {σ τ : Naming} :
    (e.withSpan span).Laid σ τ ↔ e.Laid σ τ := by
  rw [laid_iff, laid_iff]; rfl

/-- The numbers do not hang on the scopes. -/
theorem Naming.run_names_enter {params : List Ident} {σ ρ : Naming} (closed : Bool)
    (h : Run Names σ params ρ) : Run Names (σ.enter closed) params (ρ.enter closed) := by
  induction params generalizing σ with
  | nil => exact congrArg (Naming.enter · closed) h
  | cons i params ih =>
    obtain ⟨_, ⟨hname, hid, rfl⟩, hrest⟩ := h
    exact ⟨_, ⟨hname, hid, rfl⟩, ih hrest⟩

end FlowTyping
