import FlowTyping.Proofs.Widening

/-!
# Joins of types, tables and snapshots

`Ty.semilattice`: types are ordered by coverage, and `Ty.unionOf` gives least upper bounds.  A type is the
set of its primitives, in the order of their bytes (`bytesLt_iff`), so laws of sets are laws of types.
`Bindings.merge_joins`: the same laws for tables, where a missing name counts as `Nil`, and for snapshots
of one chain.  All of it is read off the merge of two entries, `Bindings.meeting`.
-/

namespace FlowTyping

/-- On the values in `on`, `op` is a join: `a` is below `b` where their join is `b`. -/
structure IsJoin (on : α → Prop) (op : α → α → α) (below : α → α → Prop) : Prop where
  closed : ∀ {a b}, on a → on b → on (op a b)
  comm : ∀ {a b}, on a → on b → op a b = op b a
  assoc : ∀ {a b c}, on a → on b → on c → op (op a b) c = op a (op b c)
  self : ∀ {a}, on a → op a a = a
  eq_right_iff : ∀ {a b}, on a → on b → (op a b = b ↔ below a b)

/-! ### Texts by their bytes -/

/-- A text comes before another one in the order of their bytes in UTF-8. -/
def BytesLt (a b : String) : Prop := a.toUTF8.data.toList < b.toUTF8.data.toList

/-- The bytes of a lesser character are lesser, whatever follows. -/
theorem utf8EncodeChar_append_lt {c d : Char} (h : c < d) (as bs : List UInt8) :
    String.utf8EncodeChar c ++ as < String.utf8EncodeChar d ++ bs := by
  have hlt : c.val.toNat < d.val.toNat := h
  have hd : d.val.toNat < 1114112 := by
    have := d.valid
    simp only [UInt32.isValidChar, Nat.isValidChar] at this
    omega
  simp only [String.utf8EncodeChar]
  generalize c.val.toNat = m at hlt
  generalize d.val.toNat = n at hlt hd
  -- the digits to the base of 64, each from the one before
  have hthird (k : Nat) : k / 4096 = k / 64 / 64 := by omega
  have hfourth (k : Nat) : k / 262144 = k / 64 / 64 / 64 := by omega
  repeat' split
  all_goals
    simp only [List.cons_append, List.nil_append, List.cons_lt_cons_iff, UInt8.lt_iff_toNat_lt,
      ← UInt8.toNat_inj, UInt8.toNat_ofNat', hthird, hfourth]
    omega

theorem flatMap_utf8EncodeChar_lt {as bs : List Char} (h : as < bs) :
    as.flatMap String.utf8EncodeChar < bs.flatMap String.utf8EncodeChar := by
  induction h with
  | @nil d ds =>
    rw [List.flatMap_nil, List.flatMap_cons]
    cases hd : String.utf8EncodeChar d with
    | nil => simp [String.utf8EncodeChar_ne_nil] at hd
    | cons b bs => exact .nil
  | rel hcd =>
    rw [List.flatMap_cons, List.flatMap_cons]
    exact utf8EncodeChar_append_lt hcd _ _
  | cons _ ih =>
    rw [List.flatMap_cons, List.flatMap_cons]
    exact List.append_left_lt ih

theorem toUTF8_eq (a : String) : a.toUTF8.data.toList = a.toList.flatMap String.utf8EncodeChar := by
  rw [String.toUTF8, ← String.utf8Encode_toList, List.utf8Encode]
  simp

/-- Bytes order texts as characters do. -/
theorem bytesLt_iff {a b : String} : BytesLt a b ↔ a < b := by
  have half {a b : String} (h : a < b) : BytesLt a b := by
    rw [BytesLt, toUTF8_eq, toUTF8_eq]
    exact flatMap_utf8EncodeChar_lt (String.lt_iff.1 h)
  refine ⟨fun h => ?_, half⟩
  by_contra hab
  rcases eq_or_ne a b with rfl | hne
  · exact List.lt_irrefl _ h
  · exact List.lt_asymm h (half (lt_of_not_lt_of_ne hab hne))

/-! ### Types -/

namespace Ty
variable {a b : Ty} {ts us : List Ty}

/-- A primitive, or a union of at least two of them in the strict order of their bytes. -/
def Canonical (t : Ty) : Prop := (∃ name, t = prim name) ∨ t.isUnion ∧ t.names.Pairwise BytesLt

theorem canonical (t : Ty) : t.Canonical := by
  have hbytes : t.names.Pairwise BytesLt := t.increasing.imp bytesLt_iff.2
  match hnames : t.names with
  | [] => exact absurd hnames t.nonempty
  | [name] => exact .inl ⟨name, ext_mem fun x => by rw [mem_prim, mem_def, hnames, List.mem_singleton]⟩
  | _ :: _ :: _ => exact .inr ⟨by simp [isUnion, hnames], hbytes⟩

/-- A union is the least type that covers its parts. -/
theorem unionOf_coveredBy_iff (h : ts ≠ []) {u : Ty} :
    (unionOf ts).CoveredBy u ↔ ∀ t ∈ ts, t.CoveredBy u := by
  constructor
  · intro hu t ht x hx
    exact hu x ((mem_unionOf h).2 ⟨t, ht, hx⟩)
  · intro hu x hx
    obtain ⟨t, ht, hx⟩ := (mem_unionOf h).1 hx
    exact hu t ht x hx

theorem unionOf_congr (h : ∀ t, t ∈ ts ↔ t ∈ us) : unionOf ts = unionOf us := by
  rcases eq_or_ne ts [] with rfl | hts
  · rw [List.eq_nil_iff_forall_not_mem.2 fun t ht => List.not_mem_nil ((h t).2 ht)]
  · obtain ⟨t, ht⟩ := List.exists_mem_of_ne_nil ts hts
    have hus : us ≠ [] := List.ne_nil_of_mem ((h t).1 ht)
    exact ext_mem fun x => by simp [mem_unionOf, hts, hus, h]

theorem unionOf_append (hts : ts ≠ []) (hus : us ≠ []) :
    unionOf (ts ++ us) = (unionOf ts).join (unionOf us) :=
  ext_mem fun x => by simp [mem_unionOf, hts, hus, or_and_right, exists_or]

theorem unionOf_unionOf_cons (hus : us ≠ []) : unionOf (unionOf us :: ts) = unionOf (us ++ ts) :=
  ext_mem fun x => by simp [mem_unionOf, hus, or_and_right, exists_or]

/-- The primitives of a union are those of its parts, sorted and without repetitions. -/
theorem names_unionOf (h : ts ≠ []) : (unionOf ts).names = insertNames (ts.flatMap names) [] := by
  refine eq_of_mem_iff (unionOf ts).increasing (pairwise_insertNames _ .nil) fun x => ?_
  rw [← mem_def, mem_unionOf h, mem_insertNames, List.mem_flatMap]
  simp [mem_def]

/-- Equal types need no union. -/
theorem join_eq_ite (a b : Ty) : a.join b = if a = b then a else unionOf [a, b] := by
  split
  · next h => rw [h, join_self]
  · rfl

/-- How a type is put together from primitives. -/
inductive Nest where
  | prim (name : String)
  | union (parts : List Nest)

namespace Nest

def type : Nest → Ty
  | prim name => .prim name
  | union parts => unionOf (parts.map type)

/-- The primitives inside.  A union of nothing stands for `Nil`. -/
def leaves : Nest → List String
  | prim name => [name]
  | union [] => ["Nil"]
  | union (part :: parts) => part.leaves ++ parts.flatMap leaves

theorem mem_type_iff {x : String} : (n : Nest) → (x ∈ n.type ↔ x ∈ n.leaves)
  | prim name => by simp [type, leaves]
  | union [] => by simp [type, leaves, nil]
  | union (part :: parts) => by
    have hpart := mem_type_iff (x := x) part
    have hparts : ∀ p ∈ parts, (x ∈ p.type ↔ x ∈ p.leaves) := fun p _ => mem_type_iff p
    have hunion : x ∈ (union (part :: parts)).type ↔ x ∈ part.type ∨ ∃ p ∈ parts, x ∈ p.type := by
      simp [type, mem_unionOf]
    rw [hunion, leaves, List.mem_append, List.mem_flatMap, hpart]
    exact or_congr_right (exists_congr fun p => and_congr_right (hparts p))

/-- However a type is put together, it is the union of the primitives inside. -/
theorem type_eq (n : Nest) : n.type = unionOf (n.leaves.map .prim) := by
  obtain ⟨x, hx⟩ := n.type.exists_mem
  have hne : n.leaves.map Ty.prim ≠ [] := by
    simpa using List.ne_nil_of_mem (n.mem_type_iff.1 hx)
  exact ext_mem fun x => by simp [mem_unionOf hne, mem_type_iff]

theorem exists_type_eq (t : Ty) : ∃ n : Nest, n.type = t := by
  have hne : t.names.map Ty.prim ≠ [] := by simpa using t.nonempty
  refine ⟨union (t.names.map .prim), ext_mem fun x => ?_⟩
  have hparts : (t.names.map Nest.prim).map type = t.names.map Ty.prim := by simp [type]
  rw [type, hparts, mem_unionOf hne]
  simp [mem_def (t := t)]

end Nest

theorem isJoin : IsJoin (fun _ => True) join CoveredBy where
  closed _ _ := trivial
  comm _ _ := join_comm _ _
  assoc _ _ _ := join_assoc _ _ _
  self _ := join_self _
  eq_right_iff _ _ := by rw [join_comm, join_eq_left_iff]

end Ty

/-! ### Tables -/

namespace Bindings
variable {a b : Bindings}

/-- Every name has in the second table at least the primitives that it has in the first, where a name that
the first does not bind counts as `Nil`. -/
def Precedes (a b : Bindings) : Prop :=
  a.Le b ∧ ∀ x u, a.get? x = none → b.get? x = some u → "Nil" ∈ u

theorem meeting_eq (t u : Option Ty) :
    meeting t u = if t.isSome || u.isSome then some ((t.getD .nil).join (u.getD .nil)) else none := by
  cases t with
  | some t => rfl
  | none =>
    cases u with
    | some u => exact congrArg some (Ty.join_comm u .nil)
    | none => rfl

theorem isJoin_meeting : IsJoin (fun _ => True) meeting fun t u =>
    (∀ ty, t = some ty → ∃ v, u = some v ∧ ty.CoveredBy v) ∧ (∀ v, t = none → u = some v → "Nil" ∈ v) where
  closed _ _ := trivial
  comm _ _ := by simp only [meeting_eq, Ty.join_comm, Bool.or_comm]
  assoc {t u v} _ _ _ := by
    rcases t with _ | t <;> rcases u with _ | u <;> rcases v with _ | v
    all_goals simp only [meeting, Option.getD_some, Option.getD_none, Option.some.injEq]
    all_goals
      refine Ty.ext_mem fun x => ?_
      simp only [Ty.mem_join]
      tauto
  self {t} _ := by cases t <;> simp [meeting]
  eq_right_iff {t u} _ _ := by
    rcases t with _ | t <;> rcases u with _ | u
    · simp [meeting]
    · simp [meeting, Ty.join_eq_left_iff, Ty.CoveredBy, Ty.nil, Ty.prim]
    · simp [meeting]
    · simp [meeting, Ty.join_comm t, Ty.join_eq_left_iff]

theorem contains_merge (a b : Bindings) (x : String) :
    (merge a b).contains x = (a.contains x || b.contains x) := by
  simp only [Table.contains, get?_merge]
  cases a.get? x <;> cases b.get? x <;> rfl

theorem eq_join_of_get?_merge {x : String} {ty : Ty} (h : (merge a b).get? x = some ty) :
    ty = ((a.get? x).getD .nil).join ((b.get? x).getD .nil) := by
  rw [get?_merge, meeting_eq] at h
  split at h
  · exact (Option.some.inj h).symm
  · cases h

theorem isJoin_merge : IsJoin (fun _ => True) merge Precedes where
  closed _ _ := trivial
  comm _ _ := Table.ext_get? fun x => by
    rw [get?_merge, get?_merge]
    exact isJoin_meeting.comm trivial trivial
  assoc _ _ _ := Table.ext_get? fun x => by
    simp only [get?_merge]
    exact isJoin_meeting.assoc trivial trivial trivial
  self _ := Table.ext_get? fun x => by
    rw [get?_merge]
    exact isJoin_meeting.self trivial
  eq_right_iff {a b} _ _ := by
    have hentries : merge a b = b ↔ ∀ x, meeting (a.get? x) (b.get? x) = b.get? x := by
      refine ⟨fun h x => by rw [← get?_merge, h], fun h => Table.ext_get? fun x => ?_⟩
      rw [get?_merge]
      exact h x
    rw [hentries, Precedes, Le, ← forall_and]
    exact forall_congr' fun x => isJoin_meeting.eq_right_iff trivial trivial

end Bindings

/-! ### Snapshots -/

namespace Snapshot
variable {ids : List ScopeId} {a b c : Snapshot}

/-- A snapshot of these scopes. -/
def Of (ids : List ScopeId) (a : Snapshot) : Prop := a.map Prod.fst = ids

theorem of_cons_iff {id : ScopeId} :
    Of (id :: ids) a ↔ ∃ t rest, a = (id, t) :: rest ∧ Of ids rest := by
  rw [Of, List.map_eq_cons_iff]
  constructor
  · rintro ⟨⟨_, t⟩, rest, rfl, rfl, hrest⟩
    exact ⟨t, rest, rfl, hrest⟩
  · rintro ⟨t, rest, rfl, hrest⟩
    exact ⟨(id, t), rest, rfl, rfl, hrest⟩

theorem of_nil_iff : Of [] a ↔ a = [] := List.map_eq_nil_iff

theorem merge_cons (id : ScopeId) (t u : Bindings) (a b : Snapshot) :
    merge ((id, t) :: a) ((id, u) :: b) = (id, Bindings.merge t u) :: merge a b := rfl

theorem map_snd_merge (a b : Snapshot) :
    (merge a b).map Prod.snd = List.zipWith Bindings.merge (a.map Prod.snd) (b.map Prod.snd) := by
  rw [merge, List.map_zipWith, List.zipWith_map]

/-- Below each other scope by scope. -/
def Precedes : Snapshot → Snapshot → Prop := List.Forall₂ fun x y => x.2.Precedes y.2

theorem isJoin_merge (ids : List ScopeId) : IsJoin (Of ids) merge Precedes := by
  have hjoin := Bindings.isJoin_merge
  induction ids with
  | nil => constructor <;> simp +contextual [of_nil_iff, merge, Precedes]
  | cons id ids ih =>
    refine ⟨?closed, ?comm, ?assoc, ?self, ?eq_right_iff⟩
    case closed =>
      intro _ _ h₁ h₂
      obtain ⟨t, a, rfl, ha⟩ := of_cons_iff.1 h₁
      obtain ⟨u, b, rfl, hb⟩ := of_cons_iff.1 h₂
      exact of_cons_iff.2 ⟨_, _, merge_cons .., ih.closed ha hb⟩
    case comm =>
      intro _ _ h₁ h₂
      obtain ⟨t, a, rfl, ha⟩ := of_cons_iff.1 h₁
      obtain ⟨u, b, rfl, hb⟩ := of_cons_iff.1 h₂
      rw [merge_cons, merge_cons, hjoin.comm trivial trivial, ih.comm ha hb]
    case assoc =>
      intro _ _ _ h₁ h₂ h₃
      obtain ⟨t, a, rfl, ha⟩ := of_cons_iff.1 h₁
      obtain ⟨u, b, rfl, hb⟩ := of_cons_iff.1 h₂
      obtain ⟨v, c, rfl, hc⟩ := of_cons_iff.1 h₃
      simp only [merge_cons, hjoin.assoc trivial trivial trivial, ih.assoc ha hb hc]
    case self =>
      intro _ h₁
      obtain ⟨t, a, rfl, ha⟩ := of_cons_iff.1 h₁
      rw [merge_cons, hjoin.self trivial, ih.self ha]
    case eq_right_iff =>
      intro _ _ h₁ h₂
      obtain ⟨t, a, rfl, ha⟩ := of_cons_iff.1 h₁
      obtain ⟨u, b, rfl, hb⟩ := of_cons_iff.1 h₂
      simp [merge_cons, hjoin.eq_right_iff trivial trivial, ih.eq_right_iff ha hb, Precedes]

end Snapshot

/-- Merging is a join: of tables, where a name that only one of them binds counts as `Nil` in the other, and
scope by scope of the snapshots of one chain. -/
theorem Bindings.merge_joins :
    (∀ a b : Bindings, ∀ x, (merge a b).contains x = (a.contains x || b.contains x)) ∧
    (∀ a b : Bindings, ∀ x ty, (merge a b).get? x = some ty →
      ty = ((a.get? x).getD .nil).join ((b.get? x).getD .nil)) ∧
    IsJoin (fun _ => True) merge Precedes ∧
    (∀ (s : Scopes) (i : ScopeId), (s.snapshot i).Of (s.chain i)) ∧
    (∀ a b : Snapshot, (a.merge b).map Prod.snd = List.zipWith merge (a.map Prod.snd) (b.map Prod.snd)) ∧
    ∀ ids : List ScopeId, IsJoin (Snapshot.Of ids) Snapshot.merge Snapshot.Precedes :=
  ⟨contains_merge, fun _ _ _ _ => eq_join_of_get?_merge, isJoin_merge, Scopes.map_fst_snapshot,
    Snapshot.map_snd_merge, Snapshot.isJoin_merge⟩

end FlowTyping
