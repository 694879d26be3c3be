import FlowTyping.Proofs.Numerals

/-!
# JSON text read back

A value that was written is read back (`Json.read?_spaced`), however it was spaced: as it is, but that a
number becomes the one its digits stand for, and what is no finite number becomes `null`
(`Json.reread`).  Both ways to write a value are spacings (`Json.prettyOnto_eq`, `Json.compactOnto_eq`).
-/

namespace FlowTyping.Json

/-! ### Strings -/

theorem hexFour?_hexDigit {n : Nat} (h : n < 0x20) :
    hexFour? '0' '0' (hexDigit (n / 16)) (hexDigit (n % 16)) = some n := by
  have all : ∀ n, n < 0x20 → hexFour? '0' '0' (hexDigit (n / 16)) (hexDigit (n % 16)) = some n := by decide
  exact all n h

theorem charOf?_toNat (c : Char) : charOf? c.toNat = some c := by
  have hvalid : c.toNat.isValidChar := c.valid
  rw [charOf?, dif_pos hvalid]
  rfl

/-- A character that is escaped by a letter. -/
theorem unquote?_short {letter c : Char} (h : shortEscape? letter = some c) (rest : List Char) :
    unquote? ('\\' :: letter :: rest) = (unquote? rest).map fun r => (c :: r.1, r.2) := by
  have hletter : letter ≠ 'u' := by
    rintro rfl
    exact nomatch h
  rw [unquote?, h]
  · cases unquote? rest <;> rfl
  · rintro _ _ _ _ _ ⟨⟩
    exact absurd rfl hletter

/-- A control character that is escaped by its number. -/
theorem unquote?_control {c : Char} (h : c.toNat < 0x20) (rest : List Char) :
    unquote? ('\\' :: 'u' :: '0' :: '0' :: hexDigit (c.toNat / 16) :: hexDigit (c.toNat % 16) :: rest) =
      (unquote? rest).map fun r => (c :: r.1, r.2) := by
  have hplain : ¬ (0xd800 ≤ c.toNat ∧ c.toNat < 0xdc00) := by omega
  rw [unquote?, hexFour?_hexDigit h]
  simp only [Option.bind_eq_bind, Option.bind_some, if_neg hplain, charOf?_toNat]
  cases unquote? rest <;> rfl

theorem unquote?_plain {c : Char} (h : ¬ c.toNat < 0x20) (hquote : c ≠ '"') (hback : c ≠ '\\')
    (rest : List Char) : unquote? (c :: rest) = (unquote? rest).map fun r => (c :: r.1, r.2) := by
  rw [unquote?]
  · rw [if_neg (by simp [h, hback])]
    cases unquote? rest <;> rfl
  · exact hquote
  · rintro _ _ _ _ _ rfl
    exact absurd rfl hback
  · rintro _ _ rfl
    exact absurd rfl hback

theorem unquote?_escapeChar (c : Char) (rest : List Char) :
    unquote? (escapeChar c ++ rest) = (unquote? rest).map fun r => (c :: r.1, r.2) := by
  unfold escapeChar
  split
  · next h => rw [h]; exact unquote?_short rfl rest
  next hquote =>
  split
  · next h => rw [h]; exact unquote?_short rfl rest
  next hback =>
  split
  · next h => rw [h]; exact unquote?_short rfl rest
  split
  · next h => rw [h]; exact unquote?_short rfl rest
  split
  · next h => rw [h]; exact unquote?_short rfl rest
  split
  · next h => rw [h]; exact unquote?_short rfl rest
  split
  · next h => rw [h]; exact unquote?_short rfl rest
  split
  · next h => exact unquote?_control h rest
  · next h => exact unquote?_plain h hquote hback rest

theorem unquote?_escape (cs rest : List Char) : unquote? (escape cs ++ '"' :: rest) = some (cs, rest) := by
  induction cs with
  | nil => rw [escape, List.flatMap_nil, List.nil_append, unquote?]
  | cons c cs ih => rw [escape, List.flatMap_cons, List.append_assoc, unquote?_escapeChar, ← escape, ih]; rfl

/-! ### Spacing -/

/-- The blanks that a value is written with: behind brackets and commas, by the depth, and behind colons. -/
structure Spacing where
  gap : Nat → List Char
  colon : List Char
  blank_gap : ∀ depth, (gap depth).all isBlank = true
  blank_colon : colon.all isBlank = true

namespace Spacing

/-- No blanks. -/
def compact : Spacing := ⟨fun _ => [], [], fun _ => rfl, rfl⟩

/-- One item or member a line. -/
def pretty : Spacing where
  gap := newLine
  colon := [' ']
  blank_gap := by
    intro depth
    simp [newLine, isBlank]
  blank_colon := rfl

end Spacing

section
variable (l : Spacing)

mutual

/-- A value with blanks, inside `depth` others and in front of `rest`. -/
def spacedOnto (rest : List Char) (depth : Nat) : Json → List Char
  | arr [] => '[' :: ']' :: rest
  | arr (j :: js) =>
    '[' :: (l.gap (depth + 1) ++
      spacedOnto (spacedItems (l.gap depth ++ ']' :: rest) (depth + 1) js) (depth + 1) j)
  | obj [] => '{' :: '}' :: rest
  | obj ((k, j) :: ms) =>
    '{' :: (l.gap (depth + 1) ++ (quote k ++ ':' :: (l.colon ++
      spacedOnto (spacedMembers (l.gap depth ++ '}' :: rest) (depth + 1) ms) (depth + 1) j)))
  | j => scalarText j ++ rest

def spacedItems (rest : List Char) (depth : Nat) : List Json → List Char
  | [] => rest
  | j :: js => ',' :: (l.gap depth ++ spacedOnto (spacedItems rest depth js) depth j)

def spacedMembers (rest : List Char) (depth : Nat) : List (String × Json) → List Char
  | [] => rest
  | (k, j) :: ms =>
    ',' :: (l.gap depth ++
      (quote k ++ ':' :: (l.colon ++ spacedOnto (spacedMembers rest depth ms) depth j)))

end

end

mutual

theorem prettyOnto_eq (rest : List Char) (depth : Nat) (j : Json) :
    prettyOnto rest depth j = spacedOnto .pretty rest depth j := by
  match j with
  | arr [] => rfl
  | arr (j :: js) => simp only [prettyOnto, spacedOnto, prettyOnto_eq, prettyItems_eq]; rfl
  | obj [] => rfl
  | obj ((k, j) :: ms) => simp only [prettyOnto, spacedOnto, prettyOnto_eq, prettyMembers_eq]; rfl
  | null | bool _ | int _ | float _ | str _ => rfl

theorem prettyItems_eq (rest : List Char) (depth : Nat) (js : List Json) :
    prettyItems rest depth js = spacedItems .pretty rest depth js := by
  match js with
  | [] => rfl
  | j :: js => simp only [prettyItems, spacedItems, prettyOnto_eq, prettyItems_eq]; rfl

theorem prettyMembers_eq (rest : List Char) (depth : Nat) (ms : List (String × Json)) :
    prettyMembers rest depth ms = spacedMembers .pretty rest depth ms := by
  match ms with
  | [] => rfl
  | (k, j) :: ms => simp only [prettyMembers, spacedMembers, prettyOnto_eq, prettyMembers_eq]; rfl

end

mutual

theorem compactOnto_eq (rest : List Char) (depth : Nat) (j : Json) :
    compactOnto rest j = spacedOnto .compact rest depth j := by
  match j with
  | arr [] => rfl
  | arr (j :: js) => rw [compactOnto, compactOnto_eq _ (depth + 1), compactItems_eq _ (depth + 1), spacedOnto]; rfl
  | obj [] => rfl
  | obj ((k, j) :: ms) =>
    rw [compactOnto, compactOnto_eq _ (depth + 1), compactMembers_eq _ (depth + 1), spacedOnto]; rfl
  | null | bool _ | int _ | float _ | str _ => rfl

theorem compactItems_eq (rest : List Char) (depth : Nat) (js : List Json) :
    compactItems rest js = spacedItems .compact rest depth js := by
  match js with
  | [] => rfl
  | j :: js => rw [compactItems, compactOnto_eq _ depth, compactItems_eq _ depth, spacedItems]; rfl

theorem compactMembers_eq (rest : List Char) (depth : Nat) (ms : List (String × Json)) :
    compactMembers rest ms = spacedMembers .compact rest depth ms := by
  match ms with
  | [] => rfl
  | (k, j) :: ms => rw [compactMembers, compactOnto_eq _ depth, compactMembers_eq _ depth, spacedMembers]; rfl

end

section
variable (l : Spacing) (tail : List Char)

mutual

theorem spacedOnto_append (rest : List Char) (depth : Nat) (j : Json) :
    spacedOnto l rest depth j ++ tail = spacedOnto l (rest ++ tail) depth j := by
  match j with
  | arr [] => rfl
  | arr (j :: js) => simp [spacedOnto, spacedOnto_append, spacedItems_append]
  | obj [] => rfl
  | obj ((k, j) :: ms) => simp [spacedOnto, spacedOnto_append, spacedMembers_append]
  | null | bool _ | int _ | float _ | str _ => simp [spacedOnto]

theorem spacedItems_append (rest : List Char) (depth : Nat) (js : List Json) :
    spacedItems l rest depth js ++ tail = spacedItems l (rest ++ tail) depth js := by
  match js with
  | [] => rfl
  | j :: js => simp [spacedItems, spacedOnto_append, spacedItems_append]

theorem spacedMembers_append (rest : List Char) (depth : Nat) (ms : List (String × Json)) :
    spacedMembers l rest depth ms ++ tail = spacedMembers l (rest ++ tail) depth ms := by
  match ms with
  | [] => rfl
  | (k, j) :: ms => simp [spacedMembers, spacedOnto_append, spacedMembers_append]

end

end

/-! ### What is read -/

mutual

/-- What the text of a value is read as. -/
def reread : Json → Json
  | int i => (intNumeral i).value
  | float x => if x.isFinite then float (floatNumeral x).rounded else null
  | arr items => arr (rereadItems items)
  | obj members => obj (keepLast (rereadMembers members))
  | j => j

def rereadItems : List Json → List Json
  | [] => []
  | j :: js => reread j :: rereadItems js

def rereadMembers : List (String × Json) → List (String × Json)
  | [] => []
  | (k, j) :: ms => (k, reread j) :: rereadMembers ms

end

theorem rereadItems_eq_map (items : List Json) : rereadItems items = items.map reread := by
  induction items with
  | nil => rfl
  | cons j js ih => rw [rereadItems, ih, List.map_cons]

theorem rereadMembers_eq_map (members : List (String × Json)) :
    rereadMembers members = members.map fun m => (m.1, m.2.reread) := by
  induction members with
  | nil => rfl
  | cons m ms ih => rw [rereadMembers, ih, List.map_cons]

/-! ### Blanks -/

section
variable {blanks cs : List Char}

theorem skipBlank_append (h : blanks.all isBlank = true) : skipBlank (blanks ++ cs) = skipBlank cs :=
  List.dropWhile_append_of_pos (List.all_eq_true.1 h)

theorem layer?_append (value : Reader Json) (h : blanks.all isBlank = true) :
    layer? value (blanks ++ cs) = layer? value cs := by
  unfold layer?
  rw [skipBlank_append h]

theorem value?_append (fuel : Nat) (h : blanks.all isBlank = true) :
    value? fuel (blanks ++ cs) = value? fuel cs := by
  cases fuel with
  | zero => rfl
  | succ fuel => exact layer?_append _ h

end

theorem ends_nil : Ends [] := fun _ h => nomatch h

theorem ends_cons {c : Char} (h : c ∈ [',', ']', '}']) (cs : List Char) : Ends (c :: cs) := by
  rintro _ ⟨⟩
  simp only [List.mem_cons, List.not_mem_nil, or_false] at h
  rcases h with rfl | rfl | rfl <;> exact ⟨rfl, by decide, by decide, by decide⟩

theorem ends_append {blanks cs : List Char} (h : blanks.all isBlank = true) (hcs : Ends cs) :
    Ends (blanks ++ cs) := by
  cases blanks with
  | nil => exact hcs
  | cons c blanks =>
    rintro _ ⟨⟩
    have hc : isBlank c = true := List.all_eq_true.1 h c List.mem_cons_self
    simp only [isBlank, Bool.or_eq_true, beq_iff_eq] at hc
    rcases hc with ((rfl | rfl) | rfl) | rfl <;> decide

/-! ### Scalars -/

/-- How a text starts that is neither blank nor the end of an array. -/
def Starts (cs : List Char) : Prop := ∃ c tail, cs = c :: tail ∧ isBlank c = false ∧ c ≠ ']'

theorem Starts.skipBlank_eq {cs : List Char} (h : Starts cs) : skipBlank cs = cs := by
  obtain ⟨c, tail, rfl, hc, -⟩ := h
  simp [skipBlank, hc]

section
variable {n : Numeral} (h : n.Regular) (rest : List Char)
include h

theorem Numeral.Regular.head : ∃ c tail, n.text ++ rest = c :: tail ∧ (c = '-' ∨ c.isDigit = true) := by
  obtain ⟨d, ds, hwhole, hd⟩ := h.whole.head
  unfold Numeral.text
  split
  · exact ⟨'-', _, rfl, .inl rfl⟩
  · rw [hwhole]
    exact ⟨d, _, rfl, .inr hd⟩

theorem Numeral.Regular.starts : Starts (n.text ++ rest) := by
  obtain ⟨c, tail, heq, hc⟩ := h.head rest
  refine ⟨c, tail, heq, ?_⟩
  rcases hc with rfl | hc
  · decide
  · refine ⟨Bool.eq_false_iff.2 fun hblank => ?_, ?_⟩
    · simp only [isBlank, Bool.or_eq_true, beq_iff_eq] at hblank
      rcases hblank with ((rfl | rfl) | rfl) | rfl <;> exact absurd hc (by decide)
    · rintro rfl
      exact absurd hc (by decide)

theorem Numeral.Regular.layer? {value : Reader Json} (hrest : Ends rest) :
    layer? value (n.text ++ rest) = some (n.value, rest) := by
  rw [← number?_text h hrest]
  unfold Json.layer?
  rw [(h.starts rest).skipBlank_eq]
  obtain ⟨c, tail, heq, hc⟩ := h.head rest
  rw [heq]
  split
  all_goals first
    | rfl
    | next hcons => obtain ⟨rfl, -⟩ := List.cons.inj hcons; exact absurd hc (by decide)

end

section
variable {l : Spacing}

theorem text_of_isFinite {x : Binary64} (h : x.isFinite = true) (rest : List Char) (depth : Nat) :
    spacedOnto l rest depth (float x) = (floatNumeral x).text ++ rest :=
  congrArg (· ++ rest) (floatText_of_isFinite h)

theorem text_of_not_isFinite {x : Binary64} (h : x.isFinite = false) (rest : List Char) (depth : Nat) :
    spacedOnto l rest depth (float x) = ['n', 'u', 'l', 'l'] ++ rest := by
  show floatText x ++ rest = _
  rw [floatText, h]
  rfl

theorem text_int (i : Int) (rest : List Char) (depth : Nat) :
    spacedOnto l rest depth (int i) = (intNumeral i).text ++ rest :=
  congrArg (· ++ rest) (text_intNumeral i).symm

theorem starts_spacedOnto (rest : List Char) (depth : Nat) (j : Json) : Starts (spacedOnto l rest depth j) := by
  match j with
  | null => exact ⟨'n', _, rfl, rfl, by decide⟩
  | bool true => exact ⟨'t', _, rfl, rfl, by decide⟩
  | bool false => exact ⟨'f', _, rfl, rfl, by decide⟩
  | str s => exact ⟨'"', _, rfl, rfl, by decide⟩
  | arr [] => exact ⟨'[', _, rfl, rfl, by decide⟩
  | arr (j :: js) => exact ⟨'[', _, rfl, rfl, by decide⟩
  | obj [] => exact ⟨'{', _, rfl, rfl, by decide⟩
  | obj ((k, j) :: ms) => exact ⟨'{', _, rfl, rfl, by decide⟩
  | int i =>
    rw [text_int]
    exact (regular_intNumeral i).starts rest
  | float x =>
    cases h : x.isFinite with
    | true =>
      rw [text_of_isFinite h]
      exact (regular_floatNumeral x).starts rest
    | false =>
      rw [text_of_not_isFinite h]
      exact ⟨'n', _, rfl, rfl, by decide⟩

/-! ### Values -/

variable (l)

/-- A reader that reads back what was written. -/
def Rereads (value : Reader Json) (j : Json) : Prop :=
  ∀ ⦃rest⦄, Ends rest → ∀ depth, value (spacedOnto l rest depth j) = some (j.reread, rest)

variable {l} {value : Reader Json}

theorem skipBlank_close {cs : List Char} {c : Char} (outer : Nat) (h : isBlank c = false) :
    skipBlank (l.gap outer ++ c :: cs) = c :: cs := by
  rw [skipBlank_append (l.blank_gap outer)]
  simp [skipBlank, h]

section
variable {n : Nat} {j : Json} {cs cs' cs'' rest : List Char}

theorem items?_last (hvalue : value cs = some (j, cs')) (hclose : skipBlank cs' = ']' :: rest) :
    items? value (n + 1) cs = some ([j], rest) := by
  simp [items?, hvalue, hclose]

theorem items?_more {js : List Json} (hvalue : value cs = some (j, cs'))
    (hcomma : skipBlank cs' = ',' :: cs'') (hmore : items? value n cs'' = some (js, rest)) :
    items? value (n + 1) cs = some (j :: js, rest) := by
  simp [items?, hvalue, hcomma, hmore]

variable {key : List Char}

theorem members?_last (hquote : skipBlank cs = '"' :: cs') (hkey : unquote? cs' = some (key, ':' :: cs''))
    {cs₁ : List Char} (hvalue : value cs'' = some (j, cs₁)) (hclose : skipBlank cs₁ = '}' :: rest) :
    members? value (n + 1) cs = some ([(String.ofList key, j)], rest) := by
  have hcolon : skipBlank (':' :: cs'') = ':' :: cs'' := rfl
  simp [members?, hquote, hkey, hcolon, hvalue, hclose]

theorem members?_more {ms : List (String × Json)} (hquote : skipBlank cs = '"' :: cs')
    (hkey : unquote? cs' = some (key, ':' :: cs'')) {cs₁ cs₂ : List Char}
    (hvalue : value cs'' = some (j, cs₁)) (hcomma : skipBlank cs₁ = ',' :: cs₂)
    (hmore : members? value n cs₂ = some (ms, rest)) :
    members? value (n + 1) cs = some ((String.ofList key, j) :: ms, rest) := by
  have hcolon : skipBlank (':' :: cs'') = ':' :: cs'' := rfl
  simp [members?, hquote, hkey, hcolon, hvalue, hcomma, hmore]

end

section
variable (hskip : ∀ {blanks cs}, blanks.all isBlank = true → value (blanks ++ cs) = value cs)
include hskip

/-- Items in front of the closing bracket. -/
theorem items?_spaced {blanks : List Char} (hblanks : blanks.all isBlank = true) {j : Json} {js : List Json}
    (h : ∀ i ∈ j :: js, Rereads l value i) {n : Nat} (hn : js.length < n) (rest : List Char)
    (outer depth : Nat) :
    items? value n
        (blanks ++ spacedOnto l (spacedItems l (l.gap outer ++ ']' :: rest) depth js) depth j) =
      some (j.reread :: rereadItems js, rest) := by
  obtain ⟨n, rfl⟩ := Nat.exists_eq_add_one_of_ne_zero (Nat.ne_zero_of_lt hn)
  induction js generalizing blanks j n with
  | nil =>
    have hend : Ends (l.gap outer ++ ']' :: rest) := ends_append (l.blank_gap outer) (ends_cons (by decide) _)
    exact items?_last ((hskip hblanks).trans (h j List.mem_cons_self hend depth)) (skipBlank_close outer rfl)
  | cons i js ih =>
    obtain ⟨n, rfl⟩ := Nat.exists_eq_add_one_of_ne_zero (n := n) (by simp at hn; omega)
    rw [List.forall_mem_cons] at h
    have hend : Ends (spacedItems l (l.gap outer ++ ']' :: rest) depth (i :: js)) := ends_cons (by decide) _
    refine items?_more ((hskip hblanks).trans (h.1 hend depth)) rfl ?_
    exact ih (l.blank_gap depth) h.2 n (by simpa using hn)

/-- Members in front of the closing brace. -/
theorem members?_spaced {blanks : List Char} (hblanks : blanks.all isBlank = true) {k : String} {j : Json}
    {ms : List (String × Json)} (h : ∀ m ∈ (k, j) :: ms, Rereads l value m.2) {n : Nat} (hn : ms.length < n)
    (rest : List Char) (outer depth : Nat) :
    members? value n (blanks ++ (quote k ++ ':' :: (l.colon ++
        spacedOnto l (spacedMembers l (l.gap outer ++ '}' :: rest) depth ms) depth j))) =
      some ((k, j.reread) :: rereadMembers ms, rest) := by
  obtain ⟨n, rfl⟩ := Nat.exists_eq_add_one_of_ne_zero (Nat.ne_zero_of_lt hn)
  have hquote {k : String} {cs : List Char} {blanks : List Char} (hblanks : blanks.all isBlank = true) :
      skipBlank (blanks ++ (quote k ++ cs)) = '"' :: (escape k.toList ++ '"' :: cs) := by
    rw [skipBlank_append hblanks]
    simp [quote, skipBlank, isBlank]
  induction ms generalizing blanks k j n with
  | nil =>
    have hend : Ends (l.gap outer ++ '}' :: rest) := ends_append (l.blank_gap outer) (ends_cons (by decide) _)
    have hlast := members?_last (n := n) (hquote (k := k) hblanks) (unquote?_escape _ _)
      ((hskip l.blank_colon).trans (h (k, j) List.mem_cons_self hend depth)) (skipBlank_close outer rfl)
    rwa [String.ofList_toList] at hlast
  | cons m ms ih =>
    obtain ⟨n, rfl⟩ := Nat.exists_eq_add_one_of_ne_zero (n := n) (by simp at hn; omega)
    obtain ⟨k', i⟩ := m
    rw [List.forall_mem_cons] at h
    have hend : Ends (spacedMembers l (l.gap outer ++ '}' :: rest) depth ((k', i) :: ms)) :=
      ends_cons (by decide) _
    have hmore := members?_more (hquote (k := k) hblanks) (unquote?_escape _ _)
      ((hskip l.blank_colon).trans (h.1 hend depth)) rfl
      (ih (l.blank_gap depth) h.2 n (by simpa using hn))
    rwa [String.ofList_toList] at hmore

end

/-! ### Lengths -/

mutual

/-- A value is as long as it nests deep. -/
theorem height_le_length (rest : List Char) (depth : Nat) (j : Json) :
    j.height + rest.length ≤ (spacedOnto l rest depth j).length := by
  have hscalar {j : Json} (hj : j.height = 1)
      (htext : ∀ rest, spacedOnto l rest depth j = scalarText j ++ rest) :
      j.height + rest.length ≤ (spacedOnto l rest depth j).length := by
    obtain ⟨c, tail, heq, -⟩ := starts_spacedOnto (l := l) [] depth j
    rw [htext, List.append_nil] at heq
    rw [hj, htext, heq, List.length_append, List.length_cons]
    omega
  match j with
  | arr [] => simp [height, itemsHeight, spacedOnto]; omega
  | arr (j :: js) =>
    have hj := height_le_length (spacedItems l (l.gap depth ++ ']' :: rest) (depth + 1) js) (depth + 1) j
    have hjs := itemsHeight_le_length (l.gap depth ++ ']' :: rest) (depth + 1) js
    simp only [height, itemsHeight, spacedOnto, List.length_cons, List.length_append] at hj hjs ⊢
    omega
  | obj [] => simp [height, membersHeight, spacedOnto]; omega
  | obj ((k, j) :: ms) =>
    have hj := height_le_length (spacedMembers l (l.gap depth ++ '}' :: rest) (depth + 1) ms) (depth + 1) j
    have hms := membersHeight_le_length (l.gap depth ++ '}' :: rest) (depth + 1) ms
    simp only [height, membersHeight, spacedOnto, List.length_cons, List.length_append] at hj hms ⊢
    omega
  | null | bool _ | int _ | float _ | str _ => exact hscalar rfl fun _ => rfl

theorem itemsHeight_le_length (rest : List Char) (depth : Nat) (js : List Json) :
    itemsHeight js + js.length + rest.length ≤ (spacedItems l rest depth js).length := by
  match js with
  | [] => simp [itemsHeight, spacedItems]
  | j :: js =>
    have hj := height_le_length (spacedItems l rest depth js) depth j
    have hjs := itemsHeight_le_length rest depth js
    simp only [itemsHeight, spacedItems, List.length_cons, List.length_append] at hj hjs ⊢
    omega

theorem membersHeight_le_length (rest : List Char) (depth : Nat) (ms : List (String × Json)) :
    membersHeight ms + ms.length + rest.length ≤ (spacedMembers l rest depth ms).length := by
  match ms with
  | [] => simp [membersHeight, spacedMembers]
  | (k, j) :: ms =>
    have hj := height_le_length (spacedMembers l rest depth ms) depth j
    have hms := membersHeight_le_length rest depth ms
    simp only [membersHeight, spacedMembers, List.length_cons, List.length_append] at hj hms ⊢
    omega

end

/-! ### The whole text -/

section
variable {blanks text rest : List Char}

theorem layer?_str (s : String) : layer? value (quote s ++ rest) = some (str s, rest) := by
  have htext : quote s ++ rest = '"' :: (escape s.toList ++ '"' :: rest) := by simp [quote]
  have hskip : skipBlank ('"' :: (escape s.toList ++ '"' :: rest)) = '"' :: (escape s.toList ++ '"' :: rest) :=
    rfl
  rw [htext, layer?, hskip]
  simp [unquote?_escape]

theorem layer?_arr {js : List Json} (hblanks : blanks.all isBlank = true) (hstarts : Starts text)
    (hitems : items? value (text.length + 1) text = some (js, rest)) :
    layer? value ('[' :: (blanks ++ text)) = some (arr js, rest) := by
  have hskip : skipBlank ('[' :: (blanks ++ text)) = '[' :: (blanks ++ text) := rfl
  have htext : skipBlank (blanks ++ text) = text := (skipBlank_append hblanks).trans hstarts.skipBlank_eq
  obtain ⟨c, tail, rfl, -, hc⟩ := hstarts
  rw [List.length_cons] at hitems
  simp [layer?, hskip, htext, hc, hitems]

theorem layer?_obj {ms : List (String × Json)} (hblanks : blanks.all isBlank = true)
    (hmembers : members? value (text.length + 1 + 1) ('"' :: text) = some (ms, rest)) :
    layer? value ('{' :: (blanks ++ '"' :: text)) = some (obj (keepLast ms), rest) := by
  have hskip : skipBlank ('{' :: (blanks ++ '"' :: text)) = '{' :: (blanks ++ '"' :: text) := rfl
  have htext : skipBlank (blanks ++ '"' :: text) = '"' :: text := skipBlank_append hblanks
  simp [layer?, hskip, htext, hmembers]

end

theorem layer?_spaced (hskip : ∀ {blanks cs}, blanks.all isBlank = true → value (blanks ++ cs) = value cs)
    {j : Json} (hitems : ∀ items, j = arr items → ∀ i ∈ items, Rereads l value i)
    (hmembers : ∀ ms, j = obj ms → ∀ m ∈ ms, Rereads l value m.2) : Rereads l (layer? value) j := by
  intro rest hrest depth
  match j with
  | null => rfl
  | bool true => rfl
  | bool false => rfl
  | str s => exact layer?_str s
  | int i =>
    rw [text_int]
    exact (regular_intNumeral i).layer? rest hrest
  | float x =>
    unfold reread
    cases h : x.isFinite with
    | true =>
      rw [text_of_isFinite h, (regular_floatNumeral x).layer? rest hrest, value_floatNumeral]
      rfl
    | false =>
      rw [text_of_not_isFinite h]
      rfl
  | arr [] => rfl
  | arr (j :: js) =>
    refine layer?_arr (l.blank_gap _) (starts_spacedOnto _ _ _) ?_
    refine items?_spaced hskip (List.all_nil ..) (hitems _ rfl) ?_ rest depth (depth + 1)
    have hitem := height_le_length (l := l) (spacedItems l (l.gap depth ++ ']' :: rest) (depth + 1) js)
      (depth + 1) j
    have := itemsHeight_le_length (l := l) (l.gap depth ++ ']' :: rest) (depth + 1) js
    omega
  | obj [] => rfl
  | obj ((k, j) :: ms) =>
    refine layer?_obj (l.blank_gap _) ?_
    refine members?_spaced hskip (List.all_nil ..) (hmembers _ rfl) ?_ rest depth (depth + 1)
    have hmember := height_le_length (l := l) (spacedMembers l (l.gap depth ++ '}' :: rest) (depth + 1) ms)
      (depth + 1) j
    have := membersHeight_le_length (l := l) (l.gap depth ++ '}' :: rest) (depth + 1) ms
    show ms.length < (quote k ++ ':' :: (l.colon ++ _)).length + 1
    simp only [List.length_append, List.length_cons]
    omega

theorem value?_spaced {fuel : Nat} {j : Json} (h : j.height ≤ fuel) : Rereads l (value? fuel) j := by
  induction fuel generalizing j with
  | zero => exact absurd h (Nat.not_le_of_gt j.height_pos)
  | succ fuel ih =>
    refine layer?_spaced (value?_append fuel) ?_ ?_
    · rintro items rfl i hi
      have := height_le_itemsHeight hi
      simp only [height] at h
      exact ih (by omega)
    · rintro ms rfl m hm
      have := height_le_membersHeight hm
      simp only [height] at h
      exact ih (by omega)

theorem read?_spaced (l : Spacing) {blanks : List Char} (hblanks : blanks.all isBlank = true) (j : Json) :
    read? (spacedOnto l blanks 0 j) = some j.reread := by
  have hlength := height_le_length (l := l) blanks 0 j
  have hends : Ends blanks := List.append_nil blanks ▸ ends_append hblanks ends_nil
  have hvalue : value? ((spacedOnto l blanks 0 j).length + 1) (spacedOnto l blanks 0 j) =
      some (j.reread, blanks) := value?_spaced (by omega) hends 0
  have hskip : skipBlank blanks = [] := by
    have hdrop : skipBlank (blanks ++ []) = skipBlank [] := skipBlank_append hblanks
    rwa [List.append_nil] at hdrop
  simp [read?, hvalue, hskip]

end

section
variable {blanks : List Char} (hblanks : blanks.all isBlank = true) (j : Json)
include hblanks

/-- What is printed with one item a line is read back, also with blanks behind it. -/
theorem read?_pretty : read? (j.pretty.toList ++ blanks) = some j.reread := by
  rw [pretty, String.toList_ofList, prettyOnto_eq, spacedOnto_append]
  exact read?_spaced .pretty hblanks j

/-- What is printed on one line is read back, also with blanks behind it. -/
theorem read?_line : read? (j.line.toList ++ blanks) = some j.reread := by
  rw [line, String.toList_ofList, compact, compactOnto_eq _ 0, spacedOnto_append]
  exact read?_spaced .compact hblanks j

end

end FlowTyping.Json
