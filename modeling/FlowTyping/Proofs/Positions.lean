import FlowTyping.Proofs.Placement
import Mathlib.Data.List.DropRight

/-!
# Registries with an index

A `Module` goes through its methods to find the one with a name, and through the calls of the method to
find the one with a signature.  An `IndexedModule` keeps an index for each of the two lists, which has the
positions of the entries under their keys, and gives up at a position that is out of range.
`IndexedModule.run_keeps`: whatever is defined, stored, observed and recorded, it never gives up, each
index stays in step with its list (`IndexedList.InStep`), and what it holds is what the operations say
(`IndexedModule.Keeps`) and what a `Module` holds.
-/

namespace FlowTyping

instance : Ord Ty := ⟨compareOn Ty.names⟩

instance : Std.TransOrd Ty := inferInstanceAs (Std.TransCmp (compareOn Ty.names))

instance : Std.LawfulEqOrd Ty where
  compare_self {t} := (inferInstance : Std.ReflCmp (compareOn Ty.names)).compare_self (a := t)
  eq_of_compare {a b} h := Ty.ext_mem fun x => by
    rw [Ty.mem_def, Ty.mem_def, Std.LawfulEqOrd.eq_of_compare (a := a.names) h]

/-! ### Lists with an index -/

/-- Entries, and an index of the positions at which they stand. -/
structure IndexedList (κ β : Type) [Ord κ] where
  entries : List β := []
  index : Table κ Nat := .empty

namespace IndexedList

variable {κ β : Type} [Ord κ] [DecidableEq κ]

/-- The entry for a key, if there is one.  There is no answer if its position is out of range. -/
def find? (l : IndexedList κ β) (k : κ) : Option (Option β) :=
  match l.index.get? k with
  | some i => l.entries[i]?.map some
  | none => some none

/-- The index has the position of each entry under the key of that entry, and nothing else. -/
def InStep (key : β → κ) (l : IndexedList κ β) : Prop :=
  ∀ k i, l.index.get? k = some i ↔ ∃ e, l.entries[i]? = some e ∧ key e = k

namespace InStep
variable {key : β → κ} {l : IndexedList κ β} {k : κ}

theorem empty (key : β → κ) : ({} : IndexedList κ β).InStep key := fun k i => by simp

variable (h : l.InStep key)
include h

/-- Two entries with one key would have one position. -/
theorem nodup : (l.entries.map key).Nodup := by
  rw [List.nodup_iff_getElem?_ne_getElem?]
  intro i j hij hj heq
  rw [List.length_map] at hj
  rw [List.getElem?_map, List.getElem?_map, List.getElem?_eq_getElem (hij.trans hj),
    List.getElem?_eq_getElem hj] at heq
  have hi := (h _ i).2 ⟨_, List.getElem?_eq_getElem (hij.trans hj), Option.some.inj heq⟩
  have hj := (h _ j).2 ⟨_, List.getElem?_eq_getElem hj, rfl⟩
  rw [hi] at hj
  exact hij.ne (Option.some.inj hj)

theorem get?_eq_none_iff : l.index.get? k = none ↔ ∀ e ∈ l.entries, key e ≠ k := by
  rw [Option.eq_none_iff_forall_ne_some]
  constructor
  · intro hnone e he hk
    obtain ⟨i, hi⟩ := List.getElem?_of_mem he
    exact hnone i ((h k i).2 ⟨e, hi, hk⟩)
  · intro hne i hi
    obtain ⟨e, he, hk⟩ := (h k i).1 hi
    exact hne e (List.mem_of_getElem? he) hk

theorem find?_eq : l.find? k = some (l.entries.find? fun e => key e = k) := by
  unfold find?
  split
  · next i hi =>
    obtain ⟨e, he, rfl⟩ := (h _ i).1 hi
    have hsome : (l.entries.find? fun e' => key e' = key e).isSome :=
      List.find?_isSome.2 ⟨e, List.mem_of_getElem? he, decide_eq_true rfl⟩
    obtain ⟨e', hfound⟩ := Option.isSome_iff_exists.1 hsome
    have hkey : key e' = key e := by simpa using List.find?_some hfound
    rw [he, hfound, List.inj_on_of_nodup_map h.nodup (List.mem_of_find?_eq_some hfound)
      (List.mem_of_getElem? he) hkey]
    rfl
  · next hnone =>
    refine congrArg some (Eq.symm (List.find?_eq_none.2 fun e he => ?_))
    simpa using h.get?_eq_none_iff.1 hnone e he

theorem set {i : Nat} {e e' : β} (he : l.entries[i]? = some e) (hkey : key e' = key e) :
    InStep key { l with entries := l.entries.set i e' } := by
  obtain ⟨hlt, rfl⟩ := List.getElem?_eq_some_iff.1 he
  intro k j
  show l.index.get? k = some j ↔ ∃ e, (l.entries.set i e')[j]? = some e ∧ key e = k
  rw [h k j, List.getElem?_set]
  split
  · next hij =>
    subst hij
    simp [hlt, hkey]
  · rfl

end InStep

/-! #### Changes -/

/-- How entries change where the one for a key is changed by `f`, and `new?` becomes the last one if there
is none. -/
inductive Altered (key : β → κ) (k : κ) (new? : Option β) (f : β → Option β) : List β → List β → Prop
  | missing {es : List β} (h : ∀ e ∈ es, key e ≠ k) : Altered key k new? f es (es ++ new?.toList)
  | found {front back : List β} {e e' : β} (hfront : ∀ x ∈ front, key x ≠ k) (he : key e = k)
    (hback : ∀ x ∈ back, key x ≠ k) (hf : f e = some e') :
    Altered key k new? f (front ++ e :: back) (front ++ e' :: back)

variable [Std.TransOrd κ] [Std.LawfulEqOrd κ]

/-- Changes the entry for a key by `f`.  If there is none, `new?` becomes the last one. -/
def alter (k : κ) (new? : Option β) (f : β → Option β) (l : IndexedList κ β) :
    Option (IndexedList κ β) :=
  match l.index.get? k with
  | some i => do
    let e ← l.entries[i]?
    return { l with entries := l.entries.set i (← f e) }
  | none =>
    match new? with
    | some new => some ⟨l.entries ++ [new], l.index.insert k l.entries.length⟩
    | none => some l

namespace InStep
variable {key : β → κ} {l : IndexedList κ β} {k : κ} (h : l.InStep key)
include h

theorem insert {new : β} (hk : key new = k) (hnone : l.index.get? k = none) :
    InStep key ⟨l.entries ++ [new], l.index.insert k l.entries.length⟩ := by
  intro k' i
  show (l.index.insert k _).get? k' = some i ↔ ∃ e, (l.entries ++ [new])[i]? = some e ∧ key e = k'
  have hlt {i : Nat} (hi : l.index.get? k' = some i) : i < l.entries.length := by
    obtain ⟨e, he, -⟩ := (h _ _).1 hi
    exact (List.getElem?_eq_some_iff.1 he).1
  rw [Table.get?_insert]
  rcases Nat.lt_trichotomy i l.entries.length with hi | rfl | hi
  · rw [List.getElem?_append_left hi, ← h k' i]
    split
    · next hk' =>
      rw [hk', hnone]
      refine ⟨fun heq => absurd (Option.some.inj heq) hi.ne', fun heq => ?_⟩
      cases heq
    · rfl
  · rw [List.getElem?_concat_length]
    split
    · next hk' => simp [hk, hk']
    · next hk' =>
      refine ⟨fun hi => absurd (hlt hi) (Nat.lt_irrefl _), ?_⟩
      rintro ⟨e, he, rfl⟩
      exact absurd (hk ▸ congrArg key (Option.some.inj he).symm) hk'
  · rw [List.getElem?_eq_none (by rw [List.length_append, List.length_singleton]; exact hi)]
    constructor
    · intro hi'
      split at hi'
      · exact absurd (Option.some.inj hi') hi.ne
      · exact absurd (hlt hi') hi.not_gt
    · rintro ⟨_, ⟨⟩, _⟩

/-- An index in step stays in step, and no position is out of range. -/
theorem alter (new? : Option β) (f : β → Option β) (hnew : ∀ e ∈ new?, key e = k)
    (hf : ∀ e ∈ l.entries, key e = k → ∃ e', f e = some e' ∧ key e' = k) :
    ∃ l', l.alter k new? f = some l' ∧ l'.InStep key ∧ Altered key k new? f l.entries l'.entries := by
  unfold IndexedList.alter
  cases hi : l.index.get? k with
  | some i =>
    obtain ⟨e, he, rfl⟩ := (h _ i).1 hi
    obtain ⟨e', hfe, hkey⟩ := hf e (List.mem_of_getElem? he) rfl
    refine ⟨{ l with entries := l.entries.set i e' }, by simp [he, hfe], h.set he hkey, ?_⟩
    obtain ⟨hlt, rfl⟩ := List.getElem?_eq_some_iff.1 he
    obtain ⟨front, back, hsplit, -, hset⟩ : ∃ front back, l.entries = front ++ l.entries[i] :: back ∧
      front.length = i ∧ l.entries.set i e' = front ++ e' :: back := List.exists_of_set hlt
    have hnodup := h.nodup
    rw [hsplit, List.map_append, List.map_cons, List.nodup_middle, List.nodup_cons, List.mem_append,
      not_or] at hnodup
    have hother {es : List β} (hes : key l.entries[i] ∉ es.map key) (x : β) (hx : x ∈ es) :
        key x ≠ key l.entries[i] := fun heq => hes (by rw [← heq]; exact List.mem_map_of_mem hx)
    have haltered : Altered key (key l.entries[i]) new? f (front ++ l.entries[i] :: back)
        (front ++ e' :: back) := .found (hother hnodup.1.1) rfl (hother hnodup.1.2) hfe
    rwa [← hsplit, ← hset] at haltered
  | none =>
    have hmissing : Altered key k new? f l.entries (l.entries ++ new?.toList) :=
      .missing (h.get?_eq_none_iff.1 hi)
    cases new? with
    | some new => exact ⟨_, rfl, h.insert (hnew new rfl) hi, hmissing⟩
    | none => exact ⟨l, rfl, h, by simpa using hmissing⟩

end InStep

namespace Altered
variable {key : β → κ} {k : κ} {new? : Option β} {f : β → Option β} {es es' : List β}
  (h : Altered key k new? f es es')
include h

omit [Ord κ] [DecidableEq κ] [Std.TransOrd κ] [Std.LawfulEqOrd κ] in
/-- What holds of all entries, if it goes on to the changed one and holds of the new one. -/
theorem forall_mem {P : β → Prop} (hes : ∀ e ∈ es, P e) (hnew : ∀ e ∈ new?, P e)
    (hf : ∀ e ∈ es, ∀ e', f e = some e' → P e') : ∀ e ∈ es', P e := by
  cases h with
  | missing _ =>
    intro e he
    rcases List.mem_append.1 he with he | he
    · exact hes e he
    · exact hnew e (Option.mem_toList.1 he)
  | @found front back e e' _ _ _ hfe =>
    intro x hx
    rcases List.mem_append.1 hx with hx | hx
    · exact hes x (List.mem_append_left _ hx)
    rcases List.mem_cons.1 hx with rfl | hx
    · exact hf e (List.mem_append_right _ List.mem_cons_self) x hfe
    · exact hes x (List.mem_append_right _ (List.mem_cons_of_mem _ hx))

end Altered

end IndexedList

/-! ### The registry -/

/-- A method whose calls without a block are found by an index. -/
structure IndexedMethod where
  definition : Definition Expr
  instances : IndexedList Signature Instance := {}
  blockInstances : List Instance := []

namespace IndexedMethod

def name (m : IndexedMethod) : String := m.definition.name.name

/-- The method without its index. -/
def view (m : IndexedMethod) : Method := ⟨m.definition, m.instances.entries, m.blockInstances⟩

/-- What a call without a block is known to return, if anything. -/
def returns? (m : IndexedMethod) (signature : Signature) : Option (Option Ty) :=
  (m.instances.find? signature).map (Option.map (·.returns))

def store (m : IndexedMethod) (signature : Signature) (ty : Ty) : Option IndexedMethod := do
  let instances ← m.instances.alter signature (some ⟨signature, ty⟩) fun i => some { i with returns := ty }
  return { m with instances }

def observe (m : IndexedMethod) (signature : Signature) (ty : Ty) : IndexedMethod :=
  { m with blockInstances := Instance.upsert Ty.join signature ty m.blockInstances }

end IndexedMethod

/-- A module whose methods are found by an index. -/
structure IndexedModule where
  methods : IndexedList String IndexedMethod := {}
  types : Table NodeId Ty := .empty

/-- What is done to the registry along a run. -/
inductive Operation where
  | define (d : Definition Expr)
  | store (name : String) (signature : Signature) (ty : Ty)
  | observe (name : String) (signature : Signature) (ty : Ty)
  | record (node : NodeId) (ty : Ty)

/-- A module with what an operation does to it. -/
def Module.apply (M : Module) : Operation → Module
  | .define d => M.define d
  | .store name signature ty => M.updateMethod name (·.store signature ty)
  | .observe name signature ty => M.updateMethod name (·.observe signature ty)
  | .record node ty => M.record node ty

namespace IndexedModule

/-- The module without its indices. -/
def view (M : IndexedModule) : Module :=
  { Module.initial with methods := M.methods.entries.map IndexedMethod.view, types := M.types }

/-- The method with a name, if there is one. -/
def method? (M : IndexedModule) (name : String) : Option (Option IndexedMethod) := M.methods.find? name

def define (M : IndexedModule) (d : Definition Expr) : Option IndexedModule := do
  let methods ← M.methods.alter d.name.name (some { definition := d }) fun _ => some { definition := d }
  return { M with methods }

def updateMethod (M : IndexedModule) (name : String) (f : IndexedMethod → Option IndexedMethod) :
    Option IndexedModule := do
  let methods ← M.methods.alter name none f
  return { M with methods }

def record (M : IndexedModule) (node : NodeId) (ty : Ty) : IndexedModule :=
  let seen := match M.types.get? node with
    | some old => old.join ty
    | none => ty
  { M with types := M.types.insert node seen }

def apply (M : IndexedModule) : Operation → Option IndexedModule
  | .define d => M.define d
  | .store name signature ty => M.updateMethod name (·.store signature ty)
  | .observe name signature ty => M.updateMethod name fun m => some (m.observe signature ty)
  | .record node ty => some (M.record node ty)

/-- The registry after some operations. -/
def run (ops : List Operation) : Option IndexedModule := ops.foldlM apply {}

end IndexedModule

/-! ### In step with the lists -/

theorem Instance.upsert_append {combine : Ty → Ty → Ty} {signature : Signature} {ty : Ty}
    {front : List Instance} (h : ∀ i ∈ front, i.signature ≠ signature) (is : List Instance) :
    upsert combine signature ty (front ++ is) = front ++ upsert combine signature ty is := by
  induction front with
  | nil => rfl
  | cons i front ih =>
    rw [List.cons_append, upsert, if_neg (h i List.mem_cons_self),
      ih fun j hj => h j (List.mem_cons_of_mem _ hj), List.cons_append]

theorem Module.putMethod_append {new : Method} {front : List Method} (h : ∀ m ∈ front, m.name ≠ new.name)
    (ms : List Method) : putMethod new (front ++ ms) = front ++ putMethod new ms := by
  induction front with
  | nil => rfl
  | cons m front ih =>
    rw [List.cons_append, putMethod, if_neg (h m List.mem_cons_self),
      ih fun m' hm' => h m' (List.mem_cons_of_mem _ hm'), List.cons_append]

namespace IndexedList.Altered

theorem eq_upsert {signature : Signature} {ty : Ty} {es es' : List Instance}
    (h : Altered Instance.signature signature (some ⟨signature, ty⟩)
      (fun i => some { i with returns := ty }) es es') :
    es' = Instance.upsert (fun _ new => new) signature ty es := by
  cases h with
  | missing hmissing =>
    have happend : Instance.upsert (fun _ new => new) signature ty (es ++ []) = es ++ _ :=
      Instance.upsert_append hmissing []
    rw [List.append_nil] at happend
    exact happend.symm
  | @found front back e e' hfront he hback hf =>
    cases hf
    rw [Instance.upsert_append hfront, Instance.upsert, if_pos he, he]

variable {es es' : List IndexedMethod}

theorem map_view_define {d : Definition Expr}
    (h : Altered IndexedMethod.name d.name.name (some { definition := d })
      (fun _ => some { definition := d }) es es') :
    es'.map IndexedMethod.view = Module.putMethod { definition := d } (es.map IndexedMethod.view) := by
  have hviews {es : List IndexedMethod} (hes : ∀ e ∈ es, e.name ≠ d.name.name) :
      ∀ m ∈ es.map IndexedMethod.view, m.name ≠ ({ definition := d } : Method).name := by
    intro m hm
    obtain ⟨e, he, rfl⟩ := List.mem_map.1 hm
    exact hes e he
  cases h with
  | missing hmissing =>
    have happend := Module.putMethod_append (hviews hmissing) []
    rw [List.append_nil] at happend
    rw [happend, List.map_append]
    rfl
  | @found front back e e' hfront he hback hf =>
    cases hf
    have heq : e.view.name = ({ definition := d } : Method).name := he
    rw [List.map_append, List.map_append, Module.putMethod_append (hviews hfront), List.map_cons,
      List.map_cons, Module.putMethod, if_pos heq]
    rfl

theorem map_view_update {name : String} {f : IndexedMethod → Option IndexedMethod} {g : Method → Method}
    (h : Altered IndexedMethod.name name none f es es')
    (hf : ∀ e ∈ es, ∀ e', f e = some e' → e'.view = g e.view) :
    es'.map IndexedMethod.view =
      (es.map IndexedMethod.view).map fun m => if m.name = name then g m else m := by
  have hkeep {es : List IndexedMethod} (hes : ∀ e ∈ es, e.name ≠ name) :
      es.map IndexedMethod.view =
        (es.map IndexedMethod.view).map fun m => if m.name = name then g m else m := by
    rw [List.map_map]
    refine List.map_congr_left fun e he => ?_
    have hne : e.view.name ≠ name := hes e he
    exact (if_neg hne).symm
  cases h with
  | missing hmissing =>
    rw [Option.toList_none, List.append_nil]
    exact hkeep hmissing
  | @found front back e e' hfront he hback hfe =>
    have heq : e.view.name = name := he
    rw [List.map_append, List.map_append, List.map_append, ← hkeep hfront, List.map_cons, List.map_cons,
      List.map_cons, ← hkeep hback, if_pos heq, hf e (List.mem_append_right _ List.mem_cons_self) e' hfe]

end IndexedList.Altered

/-- All indices are in step with their lists. -/
structure IndexedModule.InStep (M : IndexedModule) : Prop where
  methods : M.methods.InStep IndexedMethod.name
  instances : ∀ m ∈ M.methods.entries, m.instances.InStep Instance.signature

theorem IndexedMethod.store_inStep {m : IndexedMethod} (h : m.instances.InStep Instance.signature)
    (signature : Signature) (ty : Ty) : ∃ m', m.store signature ty = some m' ∧
      m'.instances.InStep Instance.signature ∧ m'.view = m.view.store signature ty := by
  obtain ⟨l, hl, hstep, haltered⟩ := h.alter (k := signature) (some ⟨signature, ty⟩)
    (fun i => some { i with returns := ty }) (by simp) (by simp)
  refine ⟨{ m with instances := l }, by rw [store, hl]; rfl, hstep, ?_⟩
  rw [view, haltered.eq_upsert]
  rfl

namespace IndexedModule
variable {M : IndexedModule}

theorem InStep.empty : ({} : IndexedModule).InStep :=
  ⟨.empty _, fun _ hm => absurd hm List.not_mem_nil⟩

theorem InStep.define (h : M.InStep) (d : Definition Expr) :
    ∃ N, M.define d = some N ∧ N.InStep ∧ N.view = M.view.define d := by
  obtain ⟨l, hl, hstep, haltered⟩ := h.methods.alter (k := d.name.name) (some { definition := d })
    (fun _ => some { definition := d }) (by rintro _ ⟨⟩; rfl) fun _ _ _ => ⟨_, rfl, rfl⟩
  refine ⟨{ M with methods := l }, by rw [IndexedModule.define, hl]; rfl, ⟨hstep, ?_⟩, ?_⟩
  · refine haltered.forall_mem h.instances ?_ ?_
    · rintro _ ⟨⟩
      exact .empty _
    · rintro _ _ _ ⟨⟩
      exact .empty _
  · rw [view, haltered.map_view_define]
    rfl

theorem InStep.updateMethod (h : M.InStep) {name : String} {f : IndexedMethod → Option IndexedMethod}
    {g : Method → Method} (hname : ∀ m, (g m).name = m.name)
    (hf : ∀ m : IndexedMethod, m.instances.InStep Instance.signature → ∃ m', f m = some m' ∧
      m'.instances.InStep Instance.signature ∧ m'.view = g m.view) :
    ∃ N, M.updateMethod name f = some N ∧ N.InStep ∧ N.view = M.view.updateMethod name g := by
  have hchange (m : IndexedMethod) (hm : m ∈ M.methods.entries) (m' : IndexedMethod) (hm' : f m = some m') :
      m'.instances.InStep Instance.signature ∧ m'.view = g m.view := by
    obtain ⟨m'', hm'', hstep⟩ := hf m (h.instances m hm)
    cases hm'.symm.trans hm''
    exact hstep
  obtain ⟨l, hl, hstep, haltered⟩ := h.methods.alter (k := name) none f (by simp)
    fun m hm hkey => by
      obtain ⟨m', hm', -, hview⟩ := hf m (h.instances m hm)
      refine ⟨m', hm', ?_⟩
      calc m'.view.name = (g m.view).name := by rw [hview]
        _ = m.view.name := hname _
        _ = name := hkey
  refine ⟨{ M with methods := l }, by rw [IndexedModule.updateMethod, hl]; rfl, ⟨hstep, ?_⟩, ?_⟩
  · exact haltered.forall_mem h.instances (by simp) fun m hm m' hm' => (hchange m hm m' hm').1
  · rw [view, haltered.map_view_update (g := g) fun m hm m' hm' => (hchange m hm m' hm').2]
    rfl

/-- An operation finds every position in range, leaves the indices in step, and does what it does without
them. -/
theorem InStep.apply (h : M.InStep) (op : Operation) :
    ∃ N, M.apply op = some N ∧ N.InStep ∧ N.view = M.view.apply op := by
  cases op with
  | define d => exact h.define d
  | store name signature ty =>
    exact h.updateMethod (g := (·.store signature ty)) (fun _ => rfl) fun m hm => m.store_inStep hm signature ty
  | observe name signature ty =>
    exact h.updateMethod (g := (·.observe signature ty)) (fun _ => rfl) fun m hm => ⟨_, rfl, hm, rfl⟩
  | record node ty => exact ⟨_, rfl, ⟨h.methods, h.instances⟩, rfl⟩

theorem exists_run (ops : List Operation) :
    ∃ M, run ops = some M ∧ M.InStep ∧ M.view = ops.foldl Module.apply .initial := by
  induction ops using List.reverseRecOn with
  | nil => exact ⟨{}, rfl, .empty, rfl⟩
  | append_singleton ops op ih =>
    obtain ⟨M, hM, hstep, hview⟩ := ih
    obtain ⟨N, hN, hstep', hview'⟩ := hstep.apply op
    refine ⟨N, ?_, hstep', by rw [List.foldl_concat, ← hview, hview']⟩
    unfold run at hM ⊢
    rw [List.foldlM_append, hM]
    simpa using hN

end IndexedModule

/-! ### What the operations say -/

/-- The types that calls of one signature returned, in order. -/
def typesFor (signature : Signature) (calls : List (Signature × Ty)) : List Ty :=
  calls.filterMap fun call => if call.1 = signature then some call.2 else none

namespace Instance

/-- The instances after some calls. -/
def ofCalls (combine : Ty → Ty → Ty) (calls : List (Signature × Ty)) : List Instance :=
  calls.foldl (fun is call => upsert combine call.1 call.2 is) []

variable {combine : Ty → Ty → Ty}

theorem ofCalls_concat (calls : List (Signature × Ty)) (call : Signature × Ty) :
    ofCalls combine (calls ++ [call]) = upsert combine call.1 call.2 (ofCalls combine calls) :=
  List.foldl_concat ..

/-- They stand in the order in which their signatures came up first. -/
theorem signatures_ofCalls (calls : List (Signature × Ty)) :
    (ofCalls combine calls).map signature = (calls.map Prod.fst).eraseDups := by
  induction calls using List.reverseRecOn with
  | nil => rfl
  | append_singleton calls call ih =>
    rw [ofCalls_concat, signatures_upsert, ih, List.map_append, List.eraseDups_append]
    have hsingle : [call.1].eraseDups = [call.1] := rfl
    by_cases hmem : call.1 ∈ calls.map Prod.fst <;> simp [hmem, hsingle, List.removeAll]

theorem nodup_ofCalls (calls : List (Signature × Ty)) :
    ((ofCalls combine calls).map signature).Nodup := by
  induction calls using List.reverseRecOn with
  | nil => exact List.nodup_nil
  | append_singleton calls call ih =>
    rw [ofCalls_concat, signatures_upsert]
    split
    · exact ih
    · next hnew => exact List.nodup_append.2 ⟨ih, List.nodup_singleton _, by simpa using hnew⟩

/-- What is combined along the calls of a signature. -/
theorem returns_ofCalls (calls : List (Signature × Ty)) (s : Signature) :
    (find? s (ofCalls combine calls)).map returns =
      match typesFor s calls with
      | [] => none
      | ty :: tys => some (tys.foldl combine ty) := by
  induction calls using List.reverseRecOn with
  | nil => rfl
  | append_singleton calls call ih =>
    have hconcat : typesFor s (calls ++ [call]) =
        typesFor s calls ++ if call.1 = s then [call.2] else [] := by
      unfold typesFor
      by_cases hs : call.1 = s <;> simp [hs]
    rw [ofCalls_concat, find?_upsert, hconcat]
    by_cases hs : s = call.1
    · subst hs
      rw [if_pos rfl, if_pos rfl]
      cases hfind : find? call.1 (ofCalls combine calls) <;> rw [hfind] at ih <;>
        cases htypes : typesFor call.1 calls <;> rw [htypes] at ih <;> simp_all
    · rw [if_neg hs, if_neg (Ne.symm hs), List.append_nil, ih]

end Instance

namespace Operation

def defined? : Operation → Option (Definition Expr)
  | define d => some d
  | _ => none

/-- What is stored for the method with a name. -/
def stored? (x : String) : Operation → Option (Signature × Ty)
  | store name signature ty => if name = x then some (signature, ty) else none
  | _ => none

/-- What is observed of the method with a name. -/
def observed? (x : String) : Operation → Option (Signature × Ty)
  | observe name signature ty => if name = x then some (signature, ty) else none
  | _ => none

/-- What is recorded for a node. -/
def recorded? (n : NodeId) : Operation → Option Ty
  | record node ty => if node = n then some ty else none
  | _ => none

/-- The operations behind the last definition of a name. -/
def sinceDefined (x : String) (ops : List Operation) : List Operation :=
  ops.rtakeWhile fun op => op.defined?.all fun d => d.name.name ≠ x

/-- What was stored for a method since its last definition, in order. -/
def stored (x : String) (ops : List Operation) : List (Signature × Ty) :=
  (sinceDefined x ops).filterMap (stored? x)

/-- What was observed of a method since its last definition, in order. -/
def observed (x : String) (ops : List Operation) : List (Signature × Ty) :=
  (sinceDefined x ops).filterMap (observed? x)

/-- The definitions of a name, in order. -/
def definitions (x : String) (ops : List Operation) : List (Definition Expr) :=
  (ops.filterMap defined?).filter fun d => d.name.name = x

end Operation

namespace Operation
variable {x : String} {ops : List Operation} {op : Operation}

theorem sinceDefined_concat : sinceDefined x (ops ++ [op]) =
    if op.defined?.all fun d => d.name.name ≠ x then sinceDefined x ops ++ [op] else [] :=
  List.rtakeWhile_concat _ _ _

theorem definitions_concat : definitions x (ops ++ [op]) =
    definitions x ops ++ op.defined?.toList.filter fun d => d.name.name = x := by
  unfold definitions
  rw [List.filterMap_append, List.filter_append]
  cases op <;> rfl

theorem stored_concat : stored x (ops ++ [op]) =
    if op.defined?.all fun d => d.name.name ≠ x then stored x ops ++ (op.stored? x).toList else [] := by
  unfold stored
  rw [sinceDefined_concat]
  split
  · rw [List.filterMap_append]
    cases h : op.stored? x <;> simp [h]
  · rfl

theorem observed_concat : observed x (ops ++ [op]) =
    if op.defined?.all fun d => d.name.name ≠ x then observed x ops ++ (op.observed? x).toList else [] := by
  unfold observed
  rw [sinceDefined_concat]
  split
  · rw [List.filterMap_append]
    cases h : op.observed? x <;> simp [h]
  · rfl

end Operation

/-- A method has its last definition, and the calls since then. -/
structure Method.Keeps (ops : List Operation) (m : Method) : Prop where
  definition : (Operation.definitions m.name ops).getLast? = some m.definition
  instances : m.instances = Instance.ofCalls (fun _ new => new) (Operation.stored m.name ops)
  blockInstances : m.blockInstances = Instance.ofCalls Ty.join (Operation.observed m.name ops)

namespace Method.Keeps
variable {ops : List Operation} {m : Method}

theorem defined (ops : List Operation) (d : Definition Expr) :
    ({ definition := d } : Method).Keeps (ops ++ [.define d]) := by
  have hname : ({ definition := d } : Method).name = d.name.name := rfl
  constructor
  · simp [Operation.definitions_concat, Operation.defined?, hname]
  · simp [Operation.stored_concat, Operation.defined?, hname, Instance.ofCalls]
  · simp [Operation.observed_concat, Operation.defined?, hname, Instance.ofCalls]

variable (h : m.Keeps ops)
include h

theorem stored (signature : Signature) (ty : Ty) :
    (m.store signature ty).Keeps (ops ++ [.store m.name signature ty]) := by
  have hname : (m.store signature ty).name = m.name := rfl
  refine ⟨?_, ?_, ?_⟩ <;> rw [hname]
  · simpa [Operation.definitions_concat, Operation.defined?, store] using h.definition
  · simp only [Operation.stored_concat, Operation.defined?, Operation.stored?, Option.all_none, if_true,
      Option.toList_some, Instance.ofCalls_concat, ← h.instances]
    rfl
  · simpa [Operation.observed_concat, Operation.defined?, Operation.observed?, store] using h.blockInstances

theorem observed (signature : Signature) (ty : Ty) :
    (m.observe signature ty).Keeps (ops ++ [.observe m.name signature ty]) := by
  have hname : (m.observe signature ty).name = m.name := rfl
  refine ⟨?_, ?_, ?_⟩ <;> rw [hname]
  · simpa [Operation.definitions_concat, Operation.defined?, observe] using h.definition
  · simpa [Operation.stored_concat, Operation.defined?, Operation.stored?, observe] using h.instances
  · simp only [Operation.observed_concat, Operation.defined?, Operation.observed?, Option.all_none, if_true,
      Option.toList_some, Instance.ofCalls_concat, ← h.blockInstances]
    rfl

/-- An operation that is not about the method. -/
theorem other {op : Operation} (hdefined : ∀ d ∈ op.defined?, d.name.name ≠ m.name)
    (hstored : op.stored? m.name = none) (hobserved : op.observed? m.name = none) :
    m.Keeps (ops ++ [op]) := by
  have hall : op.defined?.all fun d => d.name.name ≠ m.name := by
    cases hop : op.defined? with
    | none => rfl
    | some d => simpa using hdefined d hop
  have hfilter : (op.defined?.toList.filter fun d => d.name.name = m.name) = [] :=
    List.filter_eq_nil_iff.2 fun d hd => by simpa using hdefined d (Option.mem_toList.1 hd)
  constructor
  · rw [Operation.definitions_concat, hfilter, List.append_nil, h.definition]
  · rw [Operation.stored_concat, if_pos hall, hstored, Option.toList_none, List.append_nil, h.instances]
  · rw [Operation.observed_concat, if_pos hall, hobserved, Option.toList_none, List.append_nil,
      h.blockInstances]

end Method.Keeps

/-- A module has the methods that were defined, in the order of their first definitions, and the types
that were recorded. -/
structure Module.Keeps (ops : List Operation) (M : Module) : Prop where
  names : M.methods.map Method.name = ((ops.filterMap Operation.defined?).map (·.name.name)).eraseDups
  methods : ∀ x m, M.method? x = some m → m.Keeps ops
  types : ∀ n, M.typeOf? n = Ty.union? (ops.filterMap (Operation.recorded? n))

theorem Ty.union?_concat (tys : List Ty) (ty : Ty) :
    union? (tys ++ [ty]) = some (((union? tys).map (·.join ty)).getD ty) := by
  cases tys with
  | nil => rfl
  | cons t ts => exact congrArg some (List.foldl_concat ..)

namespace Module.Keeps
variable {ops : List Operation} {M : Module}

theorem initial : Module.initial.Keeps [] := ⟨rfl, nofun, fun _ => rfl⟩

variable (h : M.Keeps ops)
include h

theorem define (d : Definition Expr) : (M.define d).Keeps (ops ++ [.define d]) := by
  constructor
  · have hsingle : [d.name.name].eraseDups = [d.name.name] := rfl
    have hname : ({ definition := d } : Method).name = d.name.name := rfl
    rw [Module.define, names_putMethod, hname, h.names, List.filterMap_append, List.map_append,
      List.eraseDups_append]
    by_cases hmem : d.name.name ∈ (ops.filterMap Operation.defined?).map (·.name.name) <;>
      simp [hmem, hsingle, Operation.defined?, List.removeAll]
  · intro x m hm
    rw [method?_define] at hm
    split at hm
    · cases hm
      exact .defined ops d
    · next hx =>
      refine (h.methods x m hm).other ?_ rfl rfl
      rintro _ ⟨⟩
      rw [name_of_method? hm]
      exact Ne.symm hx
  · intro n
    show M.typeOf? n = _
    rw [h.types, List.filterMap_append]
    exact congrArg Ty.union? (List.append_nil _).symm

/-- What is stored or observed is about the method with the name, and about no other one. -/
theorem updateMethod {op : Operation} {name : String} {f : Method → Method}
    (hdefined : op.defined? = none) (hrecorded : ∀ n, op.recorded? n = none)
    (hf : ∀ m, (f m).definition = m.definition)
    (hsame : ∀ m : Method, m.name = name → m.Keeps ops → (f m).Keeps (ops ++ [op]))
    (hother : ∀ x, x ≠ name → op.stored? x = none ∧ op.observed? x = none) :
    (M.updateMethod name f).Keeps (ops ++ [op]) := by
  constructor
  · rw [names_updateMethod hf, h.names, List.filterMap_append]
    simp [hdefined]
  · intro x m hm
    rw [method?_updateMethod fun m => congrArg (fun d => d.name.name) (hf m)] at hm
    split at hm
    · next hx =>
      obtain ⟨m, hfound, rfl⟩ := Option.map_eq_some_iff.1 hm
      exact hsame m ((name_of_method? hfound).trans hx) (h.methods x m hfound)
    · next hx =>
      obtain ⟨hstored, hobserved⟩ := hother x hx
      rw [← name_of_method? hm] at hstored hobserved
      exact (h.methods x m hm).other (by simp [hdefined]) hstored hobserved
  · intro n
    show M.typeOf? n = _
    rw [h.types, List.filterMap_append]
    simp [hrecorded]

theorem record (node : NodeId) (ty : Ty) : (M.record node ty).Keeps (ops ++ [.record node ty]) := by
  constructor
  · show M.methods.map Method.name = _
    rw [h.names, List.filterMap_append]
    exact congrArg (fun ds : List (Definition Expr) => (ds.map fun d => d.name.name).eraseDups)
      (List.append_nil _).symm
  · exact fun x m hm => (h.methods x m hm).other (by simp [Operation.defined?]) rfl rfl
  · intro n
    have hrecorded := h.types n
    unfold typeOf? at hrecorded
    unfold Module.record typeOf?
    rw [Table.get?_insert, List.filterMap_append]
    by_cases hn : n = node
    · subst hn
      rw [if_pos rfl, hrecorded]
      simp only [Operation.recorded?, List.filterMap_cons, if_true, List.filterMap_nil, Ty.union?_concat]
      cases Ty.union? (ops.filterMap (Operation.recorded? n)) <;> rfl
    · rw [if_neg hn, hrecorded]
      simp [Operation.recorded?, Ne.symm hn]

theorem apply (op : Operation) : (M.apply op).Keeps (ops ++ [op]) := by
  cases op with
  | define d => exact h.define d
  | store name signature ty =>
    refine h.updateMethod (f := (·.store signature ty)) rfl (fun _ => rfl) (fun _ => rfl) ?_ fun x hx =>
      ⟨if_neg (Ne.symm hx), rfl⟩
    rintro m rfl hm
    exact hm.stored signature ty
  | observe name signature ty =>
    refine h.updateMethod (f := (·.observe signature ty)) rfl (fun _ => rfl) (fun _ => rfl) ?_ fun x hx =>
      ⟨rfl, if_neg (Ne.symm hx)⟩
    rintro m rfl hm
    exact hm.observed signature ty
  | record node ty => exact h.record node ty

end Module.Keeps

theorem Module.keeps_foldl (ops : List Operation) : (ops.foldl Module.apply .initial).Keeps ops := by
  induction ops using List.reverseRecOn with
  | nil => exact .initial
  | append_singleton ops op ih =>
    rw [List.foldl_concat]
    exact ih.apply op

/-! ### The registry keeps what the operations say -/

/-- What a method with an index holds after some operations: its last definition, and the calls since
then. -/
structure IndexedMethod.Keeps (ops : List Operation) (m : IndexedMethod) : Prop where
  definition : (Operation.definitions m.name ops).getLast? = some m.definition
  index : m.instances.InStep Instance.signature
  distinct : (m.instances.entries.map Instance.signature).Nodup
  /-- In the order in which the signatures were first stored. -/
  signatures : m.instances.entries.map Instance.signature =
    ((Operation.stored m.name ops).map Prod.fst).eraseDups
  /-- The type that was stored last. -/
  returns : ∀ s, m.returns? s = some (typesFor s (Operation.stored m.name ops)).getLast?
  blockDistinct : (m.blockInstances.map Instance.signature).Nodup
  blockSignatures : m.blockInstances.map Instance.signature =
    ((Operation.observed m.name ops).map Prod.fst).eraseDups
  /-- The union of the types that were observed. -/
  blockReturns : ∀ s, (Instance.find? s m.blockInstances).map Instance.returns =
    Ty.union? (typesFor s (Operation.observed m.name ops))

/-- What a registry holds after some operations. -/
structure IndexedModule.Keeps (ops : List Operation) (M : IndexedModule) : Prop where
  index : M.methods.InStep IndexedMethod.name
  /-- In the order in which the names were first defined. -/
  names : M.methods.entries.map IndexedMethod.name =
    ((ops.filterMap Operation.defined?).map (·.name.name)).eraseDups
  methods : ∀ m ∈ M.methods.entries, m.Keeps ops
  /-- The union of the types that were recorded. -/
  types : ∀ n, M.types.get? n = Ty.union? (ops.filterMap (Operation.recorded? n))

namespace Instance

theorem last_ofCalls (calls : List (Signature × Ty)) (s : Signature) :
    (find? s (ofCalls (fun _ new => new) calls)).map returns = (typesFor s calls).getLast? := by
  have hlast (tys : List Ty) (ty : Ty) : tys.foldl (fun _ new => new) ty = (ty :: tys).getLast (by simp) := by
    induction tys generalizing ty with
    | nil => rfl
    | cons t tys ih => rw [List.foldl_cons, ih, List.getLast_cons_cons]
  rw [returns_ofCalls]
  cases typesFor s calls with
  | nil => rfl
  | cons ty tys =>
    rw [List.getLast?_eq_getLast_of_ne_nil (List.cons_ne_nil ty tys)]
    exact congrArg some (hlast tys ty)

theorem union_ofCalls (calls : List (Signature × Ty)) (s : Signature) :
    (find? s (ofCalls Ty.join calls)).map returns = Ty.union? (typesFor s calls) := by
  rw [returns_ofCalls]
  cases typesFor s calls <;> rfl

end Instance

theorem IndexedMethod.keeps_of_view {ops : List Operation} {m : IndexedMethod}
    (hindex : m.instances.InStep Instance.signature) (h : m.view.Keeps ops) : m.Keeps ops := by
  obtain ⟨hdefinition, hinstances, hblock⟩ := h
  have hinstances : m.instances.entries = Instance.ofCalls _ (Operation.stored m.name ops) := hinstances
  have hblock : m.blockInstances = Instance.ofCalls _ (Operation.observed m.name ops) := hblock
  refine ⟨hdefinition, hindex, hindex.nodup, ?_, fun s => ?_, ?_, ?_, fun s => ?_⟩
  · rw [hinstances, Instance.signatures_ofCalls]
  · have hfind : (m.instances.entries.find? fun i => i.signature = s) = Instance.find? s m.instances.entries := by
      unfold Instance.find?
      congr 1
      funext i
      exact (beq_eq_decide _ _).symm
    rw [returns?, hindex.find?_eq, ← Instance.last_ofCalls, ← hinstances, hfind]
    rfl
  · rw [hblock]
    exact Instance.nodup_ofCalls _
  · rw [hblock, Instance.signatures_ofCalls]
  · rw [hblock, Instance.union_ofCalls]

namespace IndexedModule
variable {M : IndexedModule} {ops : List Operation}

theorem InStep.keeps (hM : M.InStep) (h : M.view.Keeps ops) : M.Keeps ops := by
  have hnames : M.view.methods.map Method.name = M.methods.entries.map IndexedMethod.name := by
    rw [view, List.map_map]
    rfl
  refine ⟨hM.methods, hnames ▸ h.names, fun m hm => ?_, h.types⟩
  have hnodup : (M.view.methods.map Method.name).Nodup := hnames ▸ hM.methods.nodup
  have hmem : m.view ∈ M.view.methods := List.mem_map_of_mem hm
  exact IndexedMethod.keeps_of_view (hM.instances m hm)
    (h.methods _ _ (Module.method?_of_mem hnodup hmem))

/-- Where a name is defined, its method stands with no calls, at the place where it stood if the name was
defined before; everything else is as it was. -/
theorem InStep.define_frame (hM : M.InStep) (d : Definition Expr) : ∃ N i, M.define d = some N ∧
    N.methods.index.get? d.name.name = some i ∧
    (∀ j, M.methods.index.get? d.name.name = some j → j = i) ∧
    N.methods.entries[i]? = some { definition := d } ∧
    (∀ j, j ≠ i → N.methods.entries[j]? = M.methods.entries[j]?) ∧ N.types = M.types := by
  cases hi : M.methods.index.get? d.name.name with
  | some i =>
    obtain ⟨e, he, -⟩ := (hM.methods _ i).1 hi
    have hlt := (List.getElem?_eq_some_iff.1 he).1
    refine ⟨⟨⟨M.methods.entries.set i { definition := d }, M.methods.index⟩, M.types⟩, i,
      by simp [IndexedModule.define, IndexedList.alter, hi, he], hi, fun j hj => (Option.some.inj hj).symm, ?_,
      fun j hj => List.getElem?_set_ne (Ne.symm hj), rfl⟩
    rw [List.getElem?_set_self hlt]
  | none =>
    refine ⟨⟨⟨M.methods.entries ++ [{ definition := d }],
      M.methods.index.insert d.name.name M.methods.entries.length⟩, M.types⟩, M.methods.entries.length,
      by simp [IndexedModule.define, IndexedList.alter, hi], by simp, fun _ hj => (by cases hj),
      List.getElem?_concat_length, fun j hj => ?_, rfl⟩
    rcases Nat.lt_or_gt_of_ne hj with hlt | hgt
    · exact List.getElem?_append_left hlt
    · rw [List.getElem?_eq_none (Nat.le_of_lt hgt), List.getElem?_eq_none]
      rw [List.length_append, List.length_singleton]
      exact hgt

/-- After any operations the indices are in step with their lists, and the registry holds what the
operations say and what a module without indices holds.  A definition puts a method without calls at the
place of the one that had the name, and leaves the others alone. -/
theorem run_keeps (ops : List Operation) : ∃ M, run ops = some M ∧ M.Keeps ops ∧
    M.view = ops.foldl Module.apply .initial ∧
    (∀ x, M.method? x = some (M.methods.entries.find? fun m => m.name = x)) ∧
    ∀ d, ∃ N i, M.define d = some N ∧ N.methods.index.get? d.name.name = some i ∧
      (∀ j, M.methods.index.get? d.name.name = some j → j = i) ∧
      N.methods.entries[i]? = some { definition := d } ∧
      (∀ j, j ≠ i → N.methods.entries[j]? = M.methods.entries[j]?) ∧ N.types = M.types := by
  obtain ⟨M, hrun, hstep, hview⟩ := exists_run ops
  have hkeeps : M.view.Keeps ops := hview ▸ Module.keeps_foldl ops
  exact ⟨M, hrun, hstep.keeps hkeeps, hview, fun x => hstep.methods.find?_eq, hstep.define_frame⟩

end IndexedModule
end FlowTyping
