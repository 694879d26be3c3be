import FlowTyping.Decimal.Binary64
import FlowTyping.Source.Span

/-!
# Programs

The tree of a program.  An expression is a node with an identity, a span and a form; `Form α` is one
layer of the tree with parts of type `α`, so that a function over trees is given by what it does on
one layer (`Expr.fold`, with the equation `Expr.fold_node`) and a fact about trees by what holds of
a node once it holds of the node's parts (`Expr.induction`).
-/

namespace FlowTyping

/-- The identity of a node within one program. -/
abbrev NodeId := Nat

/-- A literal value. -/
inductive Literal where
  | int (value : Int64)
  | float (value : Binary64)
  | char (value : Char)
  | str (value : String)
  | bool (value : Bool)
  | nil
deriving DecidableEq, Repr

/-- A place that binds a name: an assignment target, a method name, a parameter. -/
structure Ident where
  id : NodeId
  name : String
  span : Span
deriving DecidableEq, Repr

/-- A block that goes with a call.  Its body is made of parts of type `α`. -/
structure Block (α : Type) where
  id : NodeId
  span : Span
  params : List Ident
  body : List α
deriving DecidableEq, Repr

/-- What a method definition says: its name, its parameters, its body. -/
structure Definition (α : Type) where
  name : Ident
  params : List Ident
  body : List α
deriving DecidableEq, Repr

/-- One layer of the tree of an expression, with parts of type `α`. -/
inductive Form (α : Type) where
  | literal (value : Literal)
  /-- A read of a local variable. -/
  | var (name : String)
  | assign (target : Ident) (value : α)
  | call (name : String) (nameSpan : Span) (args : List α) (block : Option (Block α))
  /-- A run of the block that was given to the enclosing method. -/
  | yield (args : List α)
  /-- A choice.  Without an else part the choice may yield nothing. -/
  | branch (cond : α) (thenBody : List α) (elseBody : Option (List α))
  /-- A loop that runs its body as long as its condition holds. -/
  | loop (cond : α) (body : List α)
  | define (definition : Definition α)
deriving DecidableEq, Repr

/-- An expression. -/
inductive Expr where
  | node (id : NodeId) (span : Span) (form : Form Expr)
deriving Repr

/-- A program is its top-level statements, in order. -/
structure Program where
  stmts : List Expr
deriving Repr

/-- A place of a program that has an identity. -/
structure Place where
  id : NodeId
  span : Span
deriving DecidableEq, Repr

/-- The place of an identifier. -/
def Ident.place (i : Ident) : Place := ⟨i.id, i.span⟩

/-! ### Layers -/

namespace Block

def map (f : α → β) (b : Block α) : Block β := ⟨b.id, b.span, b.params, b.body.map f⟩

end Block

namespace Definition

def map (f : α → β) (d : Definition α) : Definition β := ⟨d.name, d.params, d.body.map f⟩

end Definition

namespace Form

def map (f : α → β) : Form α → Form β
  | literal v => literal v
  | var n => var n
  | assign t v => assign t (f v)
  | call n s args block => call n s (args.map f) (block.map (Block.map f))
  | yield args => yield (args.map f)
  | branch c t e => branch (f c) (t.map f) (e.map (List.map f))
  | loop c b => loop (f c) (b.map f)
  | define d => define (d.map f)

/-- The parts of a layer, in source order. -/
def parts : Form α → List α
  | literal _ => []
  | var _ => []
  | assign _ v => [v]
  | call _ _ args none => args
  | call _ _ args (some block) => args ++ block.body
  | yield args => args
  | branch c t none => c :: t
  | branch c t (some e) => c :: (t ++ e)
  | loop c b => c :: b
  | define d => d.body

/-- The places of a layer besides the node itself, in source order: the block literal, and where
names are bound. -/
def places : Form α → List Place
  | assign target _ => [target.place]
  | call _ _ _ (some block) => ⟨block.id, block.span⟩ :: block.params.map Ident.place
  | define d => d.name.place :: d.params.map Ident.place
  | _ => []

theorem parts_map (f : α → β) (form : Form α) : (form.map f).parts = form.parts.map f := by
  rcases form with _ | _ | _ | ⟨_, _, _, _ | _⟩ | _ | ⟨_, _, _ | _⟩ | _ | _ <;>
    simp [map, parts, Block.map, Definition.map]

theorem map_congr {f g : α → β} {form : Form α} (h : ∀ a ∈ form.parts, f a = g a) :
    form.map f = form.map g := by
  rcases form with _ | _ | _ | ⟨_, _, _, _ | _⟩ | _ | ⟨_, _, _ | _⟩ | _ | _ <;>
    simp_all [map, parts, Block.map, Definition.map]

theorem map_map (g : β → γ) (f : α → β) (form : Form α) :
    (form.map f).map g = form.map (g ∘ f) := by
  rcases form with _ | _ | _ | ⟨_, _, _, _ | _⟩ | _ | ⟨_, _, _ | _⟩ | _ | _ <;>
    simp [map, Block.map, Definition.map]

end Form

/-! ### Trees -/

namespace Expr

def id : Expr → NodeId
  | node id _ _ => id

def span : Expr → Span
  | node _ span _ => span

def form : Expr → Form Expr
  | node _ _ form => form

@[simp] theorem id_node (id : NodeId) (span : Span) (form : Form Expr) :
    (node id span form).id = id := rfl

@[simp] theorem span_node (id : NodeId) (span : Span) (form : Form Expr) :
    (node id span form).span = span := rfl

@[simp] theorem form_node (id : NodeId) (span : Span) (form : Form Expr) :
    (node id span form).form = form := rfl

/-- The same expression reported at another span. -/
def withSpan (e : Expr) (span : Span) : Expr := node e.id span e.form

section Fold

variable (layer : NodeId → Span → Form β → β)

mutual

/-- Works a value out of a tree from the leaves up, one layer at a time. -/
def fold : Expr → β
  | node id span form => layer id span (foldForm form)

def foldForm : Form Expr → Form β
  | .literal v => .literal v
  | .var n => .var n
  | .assign t v => .assign t (fold v)
  | .call n s args block => .call n s (foldList args) (foldBlock block)
  | .yield args => .yield (foldList args)
  | .branch c t e => .branch (fold c) (foldList t) (foldElse e)
  | .loop c b => .loop (fold c) (foldList b)
  | .define ⟨name, params, body⟩ => .define ⟨name, params, foldList body⟩

def foldList : List Expr → List β
  | [] => []
  | e :: es => fold e :: foldList es

def foldBlock : Option (Block Expr) → Option (Block β)
  | none => none
  | some ⟨id, span, params, body⟩ => some ⟨id, span, params, foldList body⟩

def foldElse : Option (List Expr) → Option (List β)
  | none => none
  | some es => some (foldList es)

end

theorem foldList_eq_map (es : List Expr) : foldList layer es = es.map (fold layer) := by
  induction es with
  | nil => rfl
  | cons e es ih => rw [foldList, ih, List.map_cons]

/-- A fold of a node is the layer function on the folds of its parts. -/
theorem fold_node (id : NodeId) (span : Span) (form : Form Expr) :
    fold layer (node id span form) = layer id span (form.map (fold layer)) := by
  rw [fold]
  congr 1
  rcases form with _ | _ | _ | ⟨_, _, _, _ | _⟩ | _ | ⟨_, _, _ | _⟩ | _ | _ <;>
    simp [foldForm, foldBlock, foldElse, Form.map, Block.map, Definition.map, foldList_eq_map]

end Fold

theorem sizeOf_lt_of_mem_parts {form : Form Expr} {e : Expr} (h : e ∈ form.parts) :
    sizeOf e < sizeOf form := by
  have mem {es : List Expr} (he : e ∈ es) : sizeOf e < sizeOf es := List.sizeOf_lt_of_mem he
  rcases form with _ | _ | _ | ⟨_, _, args, _ | block⟩ | _ | ⟨_, t, _ | els⟩ | _ | d <;>
    simp only [Form.parts, List.not_mem_nil, List.mem_cons, List.mem_append, or_false] at h
  · subst h; simp only [Form.assign.sizeOf_spec]; omega
  · have := mem h; simp; omega
  · rcases h with h | h
    · have := mem h; simp; omega
    · obtain ⟨_, _, _, body⟩ := block
      have : sizeOf e < sizeOf body := mem h
      simp; omega
  · have := mem h; simp; omega
  · rcases h with h | h
    · subst h; simp; omega
    · have := mem h; simp; omega
  · rcases h with h | h | h
    · subst h; simp; omega
    · have := mem h; simp; omega
    · have := mem h; simp; omega
  · rcases h with h | h
    · subst h; simp; omega
    · have := mem h; simp; omega
  · obtain ⟨_, _, body⟩ := d
    have : sizeOf e < sizeOf body := mem h
    simp; omega

/-- What holds of every node whose parts it holds of holds of every expression. -/
theorem induction {motive : Expr → Prop}
    (step : ∀ id span form, (∀ e ∈ Form.parts form, motive e) → motive (node id span form))
    (e : Expr) : motive e := by
  match e with
  | node id span form =>
    refine step id span form fun part h => ?_
    have := sizeOf_lt_of_mem_parts h
    exact induction step part
termination_by sizeOf e
decreasing_by
  simp only [node.sizeOf_spec]
  omega

/-- How many nodes and binding places an expression has. -/
def size : Expr → Nat := fold fun _ _ form => 1 + form.places.length + form.parts.foldr (· + ·) 0

end Expr

namespace Program

/-- How many nodes and binding places a program has. -/
def size (p : Program) : Nat := (p.stmts.map Expr.size).foldr (· + ·) 0

end Program

end FlowTyping
