import FlowTyping.Proofs.Agreeing
import FlowTyping.Proofs.Lexemes

/-!
# Text that is added

`Program.stmts_prefix_of_append_line`: the statements of a text that parses stay what they are if more
lines follow.  The scanner goes on behind the line feed as if the text began there, and what was parsed
outside of all parentheses was parsed without a look behind the end (`Parser.statements_prefix`).
-/

namespace FlowTyping

/-- Ahead of `c'` stands what stands ahead of `c`, outside of all parentheses, and then a line feed. -/
structure Cursor.Continues (v : SpanView) (s : Sides) (c c' : Cursor) : Prop
    extends c.Echoes v (.top (s := s)) c' where
  first : s.first = []
  second : firstKind s.second = .newline

namespace Parser

/-- Statements that were read up to the end of the text begin what is read of a longer one. -/
theorem statements_prefix {v : SpanView} {s : Sides} {expr' : ExprParser} {n fuel fuel' : Nat}
    {c c' d : Cursor} {stmts : List Expr}
    (h : ∀ {l : s.Level} {allowDo allowDo' : Bool} {g : Grip}, l.Fits allowDo allowDo' g →
      Carries v l Anywhere .firm (expr n allowDo) (Expr.seen v) l g (expr' allowDo'))
    (hcc' : c.Continues v s c') (hfuel : fuel ≤ fuel')
    (hrun : statements (expr n) [] fuel c = (stmts, .ok () d)) (hd : d.rest = []) :
    stmts.map (Expr.seen v) <+: (statements expr' [] fuel' c').1.map (Expr.seen v) := by
  obtain ⟨hecho, hfirst, hsecond⟩ := hcc'
  have hkind : firstKind s.first = .eof := by rw [hfirst]; rfl
  have hfits : (Sides.Level.top (s := s)).Fits true true .safe :=
    ⟨fun _ => rfl, fun _ => .inl ⟨rfl, rfl⟩, fun _ _ => by rw [hkind]; decide,
      fun _ _ => by rw [hsecond]; decide⟩
  obtain ⟨stmts', _, _, _, -, -, hseen, hrun'⟩ := statements_upto h hfits
    (fun _ _ _ => closes_of_expr fun _ hk => absurd hk List.not_mem_nil) (by rw [hsecond]; rfl) hecho hrun (hd.trans hfirst.symm) hfuel
  rw [hseen, hrun', List.map_append]
  exact List.prefix_append ..

end Parser

/-- The tokens of a valid text with more lines behind it. -/
theorem Token.lexemes_append_line {a : String} (h : ∀ t ∈ Token.lexemes a, t.kind ≠ .invalid) (b : String) :
    ∃ line rest, line.kind = .newline ∧
      Token.lexemes (a ++ "\n" ++ b) = Token.lexemes a ++ line :: rest := by
  have htext : (a ++ "\n" ++ b).toList = a.toList ++ '\n' :: b.toList := by simp
  have hlexemes := Token.scanFrom_append_newline h b.toList
  rw [Token.scanFrom_newline, ← htext] at hlexemes
  exact ⟨_, _, rfl, hlexemes⟩

theorem Cursor.continues_append_line {a : String} (h : ∀ t ∈ Token.lexemes a, t.kind ≠ .invalid)
    (b : String) : ∃ s, (ofText a).Continues .exact s (ofText (a ++ "\n" ++ b)) := by
  obtain ⟨line, rest, hline, hlexemes⟩ := Token.lexemes_append_line h b
  refine ⟨⟨[], line :: rest.filter (·.kind != .comment), false, by decide, ?_, Nat.zero_le _⟩,
    ⟨⟨_, _, (List.append_nil _).symm, ?_, rfl, fun _ _ => nofun⟩, ?_, rfl, rfl, rfl⟩, rfl, hline⟩
  · rw [show firstKind (line :: _) = .newline from hline]
    decide
  · simp [ofText, start, hlexemes, hline]
  · rintro ⟨-, heof⟩
    exact absurd ((heof line List.mem_cons_self).symm.trans hline) (by decide)

/-- Text that is added behind a line feed changes nothing of what was parsed before, whether or not the
longer text parses. -/
theorem Program.stmts_prefix_of_append_line {a b : String} {p : Program}
    (h : (Program.parse a).program? = some p) :
    p.stmts <+: (Program.parse (a ++ "\n" ++ b)).program.stmts := by
  obtain ⟨d, hrun⟩ := reading_of_program? h
  obtain ⟨s, hecho⟩ := Cursor.continues_append_line (valid_of_reading hrun).2 b
  have hfuel := Nat.succ_le_succ hecho.length_le
  have hprefix := Parser.statements_prefix (Parser.carries_expr hfuel) hecho hfuel hrun
    (valid_of_reading hrun).1
  rw [List.map_congr_left fun e _ => Expr.seen_exact e, List.map_congr_left fun e _ => Expr.seen_exact e,
    List.map_id', List.map_id'] at hprefix
  rw [stmts_parse]
  exact hprefix

namespace Program

/-- A call with one argument. -/
def once : Program where
  stmts := [.node 1 ⟨0, 6⟩ (.call "puts" ⟨0, 4⟩ [.node 0 ⟨5, 6⟩ (.literal (.int ⟨⟨1#64⟩⟩))] none)]

theorem parse_once : (parse "puts 1 # )").program? = some once := by cbv

/-- A line that would go on with the arguments, and that does not parse, leaves the call as it is. -/
theorem once_prefix :
    (parse ("puts 1 # )" ++ "\n" ++ ", 2 (")).program? = none ∧
      once.stmts <+: (parse ("puts 1 # )" ++ "\n" ++ ", 2 (")).program.stmts :=
  ⟨by cbv, stmts_prefix_of_append_line parse_once⟩

end Program

end FlowTyping
