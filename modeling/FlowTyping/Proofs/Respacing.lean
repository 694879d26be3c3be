import FlowTyping.Proofs.Agreeing
import FlowTyping.Proofs.Lexemes

/-!
# Layout

`Program.parse_respaced`: a text without invalid tokens is parsed like its tokens with single spaces
between them.  The scanner reads these tokens back (`Token.keys_respaced`), so that the cursors before
the two texts see the same as long as they do not look at spans (`Cursor.echoes_respaced`), and what is
read alike gives alike results (`Program.parse_alike`).
-/

namespace FlowTyping

/-- The tokens of a text without the comments and without the end of the text. -/
def Token.words (source : String) : List Token :=
  (Token.lexemes source).filter (·.kind != .comment)

/-- The tokens of a text with a space between any two of them. -/
def respaced (source : String) : String := " ".intercalate ((Token.words source).map Token.text)

section
variable {source : String} (h : ∀ t ∈ Token.lexemes source, t.kind ≠ .invalid)
include h

theorem Token.keys_respaced :
    (Token.lexemes (respaced source)).map Token.key = (Token.words source).map Token.key := by
  refine (keys_scanFrom 0 _).trans (keys_spaced fun t ht => ?_)
  obtain ⟨hmem, hcomment⟩ := List.mem_filter.1 ht
  exact ⟨Token.alone_of_mem_scanFrom hmem (h t hmem), h t hmem, bne_iff_ne.1 hcomment⟩

theorem Token.words_respaced : Token.words (respaced source) = Token.lexemes (respaced source) := by
  refine List.filter_eq_self.2 fun t ht => bne_iff_ne.2 fun hcomment => ?_
  have hkey : t.key ∈ (Token.words source).map Token.key :=
    Token.keys_respaced h ▸ List.mem_map_of_mem ht
  obtain ⟨u, hu, hkey⟩ := List.mem_map.1 hkey
  have hkind : u.kind = t.kind := congrArg Prod.fst hkey
  exact bne_iff_ne.1 (List.mem_filter.1 hu).2 (hkind.trans hcomment)

/-- Before the two texts stands the same, the spans apart. -/
theorem Cursor.echoes_respaced :
    (ofText source).Echoes .blind (.top (s := .ends)) (ofText (respaced source)) := by
  refine ⟨⟨Token.words source, Token.words (respaced source), (List.append_nil _).symm,
    (List.append_nil _).symm, ?_, fun _ _ => nofun⟩, fun _ t ht => ?_, rfl, rfl, rfl⟩
  · exact Token.map_seen_blind (by rw [Token.words_respaced h, Token.keys_respaced h])
  · rw [List.mem_singleton.1 ht]
    rfl

end

namespace Program

/-- Texts that are seen alike up to their ends are parsed alike. -/
theorem parse_alike {v : SpanView} {source source' : String}
    (h : (Cursor.ofText source).Echoes v (.top (s := .ends)) (Cursor.ofText source')) :
    (parse source).program.stmts.map (Expr.seen v) = (parse source').program.stmts.map (Expr.seen v) ∧
      ((parse source).program? = some (parse source).program ∧
          (parse source').program? = some (parse source').program ∨
        ∃ f f', (parse source).faults = [f] ∧ (parse source').faults = [f'] ∧ f.Alike f') := by
  have hfuel := Nat.succ_le_succ h.length_le
  match hrun : reading source with
  | (stmts, .ok () d) =>
    obtain ⟨stmts', d', hrun', hseen, -⟩ :=
      Parser.carries_statements_ok (Parser.carries_expr hfuel) h hrun
        (Cursor.holds_of_blank Sides.blank_ends) hfuel
    have hrun' : reading source' = _ := hrun'
    rw [parse_eq, parse_eq, hrun, hrun']
    exact ⟨hseen, .inl ⟨rfl, rfl⟩⟩
  | (stmts, .error (.fault f) d) =>
    obtain ⟨stmts', f', d', hrun', hseen, hf⟩ := Parser.carries_statements_fault (Parser.carries_expr hfuel)
      Sides.blank_ends h hrun hfuel
    have hrun' : reading source' = _ := hrun'
    rw [parse_eq, parse_eq, hrun, hrun']
    exact ⟨hseen, .inr ⟨f, f', rfl, rfl, hf⟩⟩
  | (stmts, .error .outOfFuel d) =>
    have hends := parse_ends source
    rw [parse_eq, hrun] at hends
    exact absurd rfl hends

/-- Layout does not matter beyond the tokens: a text without invalid tokens and its tokens with single
spaces between them have the same tokens, comments apart, and give the same program up to spans, or the
same fault. -/
theorem parse_respaced {source : String} (h : ∀ t ∈ Token.lexemes source, t.kind ≠ .invalid) :
    (Token.scan (respaced source)).map Token.key =
        ((Token.scan source).filter (·.kind != .comment)).map Token.key ∧
      (parse (respaced source)).program.unspanned = (parse source).program.unspanned ∧
      ((parse source).program? = some (parse source).program ∧
          (parse (respaced source)).program? = some (parse (respaced source)).program ∨
        ∃ f f', (parse source).faults = [f] ∧ (parse (respaced source)).faults = [f'] ∧
          f'.message = f.message ∧ f'.related?.map Prod.fst = f.related?.map Prod.fst) := by
  obtain ⟨hprogram, houtcome⟩ := parse_alike (Cursor.echoes_respaced h)
  refine ⟨?_, ?_, houtcome.imp_right ?_⟩
  · rw [Token.scan, Token.scan, List.map_append, Token.keys_respaced h, List.filter_append, List.map_append]
    simp [Token.words, Token.eofAt, Token.key]
  · rw [Expr.map_seen_blind, Expr.map_seen_blind] at hprogram
    exact congrArg mk hprogram.symm
  · rintro ⟨f, f', hf, hf', hmessage, hrelated⟩
    exact ⟨f, f', hf, hf', hmessage.symm, hrelated.symm⟩

/-- A text with a comment, a continued line and uneven spaces, and the same tokens evenly spaced. -/
theorem parse_respaced_uneven :
    respaced "x  =f?( 1_0 )# ten\n\ty \\\n= x" = "x = f? ( 1_0 ) \n y = x" ∧
      (parse "x = f? ( 1_0 ) \n y = x").program.unspanned =
        (parse "x  =f?( 1_0 )# ten\n\ty \\\n= x").program.unspanned := by
  have hvalid : (Token.lexemes "x  =f?( 1_0 )# ten\n\ty \\\n= x").all (·.kind != .invalid) = true := by cbv
  have hrespaced : respaced "x  =f?( 1_0 )# ten\n\ty \\\n= x" = "x = f? ( 1_0 ) \n y = x" := by cbv
  have hparse := parse_respaced fun t ht => bne_iff_ne.1 (List.all_eq_true.1 hvalid t ht)
  exact ⟨hrespaced, hrespaced ▸ hparse.2.1⟩

end Program

end FlowTyping
