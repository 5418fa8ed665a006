import LoxFrontEnd.Proofs.Lexical.Layout

/-!
Lines are scanned apart. No piece goes on behind the end of its line, so a text behind a line feed is
cut as it is cut alone, and what it holds stands as many lines further down as are in front of it.
-/

namespace LoxFrontEnd

namespace Position

/-- The place this many lines further down, in the same column. -/
def down (k : Nat) (p : Position) : Position := ⟨p.line + k, p.column⟩

theorem next_down (k : Nat) (p : Position) (c : Char) : (p.down k).next c = (p.next c).down k := by
  rw [next, next]
  split
  · rw [down, down, Nat.add_right_comm]
  · rfl

/-- Counting lines and columns does not ask how many lines there are already. -/
theorem after_down (k : Nat) (p : Position) (text : List Char) :
    (p.down k).after text = (p.after text).down k := by
  induction text generalizing p with
  | nil => rfl
  | cons c text ih => rw [after_cons, after_cons, next_down, ih]

/-- Behind a line feed everything stands in the columns that it has at the front of a text. -/
theorem behind_line (text : List Char) : behind (text ++ ['\n']) = start.down (text.count '\n' + 1) := by
  rw [← after_start, after_append, after_start, after_cons, after_nil, next, if_pos rfl, behind, down]
  simp only [start, Nat.add_assoc]

theorem down_down (j k : Nat) (p : Position) : (p.down j).down k = p.down (j + k) := by
  rw [down, down, down, Nat.add_assoc]

end Position

/-- The token, placed this many lines further down. -/
def Token.down (k : Nat) (token : Token) : Token := { token with position := token.position.down k }

/-- The error, placed this many lines further down. -/
def ScanError.down (k : Nat) (e : ScanError) : ScanError := { e with position := e.position.down k }

theorem Token.down_zero : Token.down 0 = id := rfl

theorem ScanError.down_zero : ScanError.down 0 = id := rfl

theorem Token.down_comp_down (j k : Nat) : Token.down k ∘ Token.down j = Token.down (j + k) :=
  funext fun token => congrArg (Token.mk token.kind token.lexeme) (token.position.down_down j k)

theorem ScanError.down_comp_down (j k : Nat) :
    ScanError.down k ∘ ScanError.down j = ScanError.down (j + k) :=
  funext fun e => congrArg (ScanError.mk e.cause e.text) (e.position.down_down j k)

namespace Piece

variable (c : Char) (cs line : List Char)

section Run

variable {inside : Char → Bool}

theorem takeWhile_line (ends : inside '\n' = false) :
    (cs ++ '\n' :: line).takeWhile inside = cs.takeWhile inside := by
  induction cs with
  | nil => exact List.takeWhile_cons_of_neg (by rw [ends]; exact Bool.false_ne_true)
  | cons c cs ih => rw [List.cons_append, List.takeWhile_cons, List.takeWhile_cons, ih]

theorem dropWhile_line (ends : inside '\n' = false) :
    (cs ++ '\n' :: line).dropWhile inside = cs.dropWhile inside ++ '\n' :: line := by
  induction cs with
  | nil => exact List.dropWhile_cons_of_neg (by rw [ends]; exact Bool.false_ne_true)
  | cons c cs ih =>
    rw [List.cons_append, List.dropWhile_cons, List.dropWhile_cons, ih]
    split <;> rfl

end Run

theorem string_line : string (cs ++ '\n' :: line) = ((string cs).1, (string cs).2 ++ '\n' :: line) := by
  simp only [string]
  rw [takeWhile_line cs line (by decide), dropWhile_line cs line (by decide)]
  generalize cs.dropWhile (fun c => decide (c ≠ '"' ∧ c ≠ '\n')) = left
  cases left with
  | nil => rfl
  | cons d others =>
    rw [List.cons_append]
    by_cases quote : d = '"'
    · subst quote
      rfl
    · have other (ds more : List Char) : d :: ds ≠ '"' :: more := fun same => quote (List.cons.inj same).1
      split
      next same => exact absurd same (other _ _)
      next =>
        split
        next same => exact absurd same (other _ _)
        next => rfl

theorem fraction_of_other {c : Char} (other : c ≠ '.') (cs : List Char) :
    fraction (c :: cs) = ([], c :: cs) := by
  unfold fraction
  split
  next same => exact absurd (List.cons.inj same).1 other
  next => rfl

theorem fraction_line :
    fraction (cs ++ '\n' :: line) = ((fraction cs).1, (fraction cs).2 ++ '\n' :: line) := by
  match cs with
  | [] => rfl
  | c :: cs =>
    by_cases point : c = '.'
    · subst point
      match cs with
      | [] => rfl
      | d :: cs =>
        simp only [List.cons_append, fraction]
        split
        · rw [takeWhile_line cs line rfl, dropWhile_line cs line rfl]
        · rfl
    · rw [List.cons_append, fraction_of_other point, fraction_of_other point, List.cons_append]

theorem number_line :
    number c (cs ++ '\n' :: line) = ((number c cs).1, (number c cs).2 ++ '\n' :: line) := by
  simp only [number]
  rw [takeWhile_line cs line rfl, dropWhile_line cs line rfl, fraction_line]

theorem word_line : word c (cs ++ '\n' :: line) = ((word c cs).1, (word c cs).2 ++ '\n' :: line) := by
  simp only [word]
  rw [takeWhile_line cs line rfl, dropWhile_line cs line rfl]

theorem symbol_line :
    symbol c (cs ++ '\n' :: line) = ((symbol c cs).1, (symbol c cs).2 ++ '\n' :: line) := by
  match cs with
  | [] =>
    have noPair : TokenKind.ofPair? c '\n' = none := by
      unfold TokenKind.ofPair?
      split
      all_goals first | rfl | contradiction
    simp only [symbol, List.nil_append, List.head?_cons, Option.bind_some, noPair, List.head?_nil,
      Option.bind_none]
    split <;> rfl
  | d :: cs =>
    simp only [symbol, List.cons_append, List.head?_cons, Option.bind_some]
    split
    · rfl
    · split <;> rfl

/-- A piece ends on its line. -/
theorem next_line : next c (cs ++ '\n' :: line) = ((next c cs).1, (next c cs).2 ++ '\n' :: line) := by
  have slash : (cs ++ '\n' :: line).head? = some '/' ↔ cs.head? = some '/' := by
    cases cs with
    | nil => exact ⟨nofun, nofun⟩
    | cons => exact Iff.rfl
  simp only [next, slash]
  split
  · rfl
  split
  · rw [takeWhile_line cs line (by decide), dropWhile_line cs line (by decide)]
  split
  · exact string_line cs line
  split
  · exact number_line c cs line
  split
  · exact word_line c cs line
  · exact symbol_line c cs line

/-- The line feed between two texts is a piece of its own. -/
theorem all_line (text line : List Char) :
    all (text ++ '\n' :: line) = all text ++ ⟨.blank, ['\n']⟩ :: all line := by
  induction text using all.induct with
  | case1 =>
    rw [List.nil_append, all, all]
    rfl
  | case2 c cs ih =>
    rw [List.cons_append, all, next_line, ih, all]
    rfl

theorem all_text (text : List Char) : (all text).flatMap Piece.text = text := by
  induction text using all.induct with
  | case1 => rw [all, List.flatMap_nil]
  | case2 c cs ih => rw [all, List.flatMap_cons, ih, next_append]

theorem place_append (p : Position) (pieces pieces' : List Piece) :
    place p (pieces ++ pieces') =
      place p pieces ++ place (p.after (pieces.flatMap Piece.text)) pieces' := by
  induction pieces generalizing p with
  | nil => rfl
  | cons piece pieces ih =>
    rw [List.cons_append, place, place, ih, List.flatMap_cons, Position.after_append, List.cons_append]

theorem place_down (k : Nat) (p : Position) (pieces : List Piece) :
    place (p.down k) pieces = (place p pieces).map (Prod.map (Position.down k) id) := by
  induction pieces generalizing p with
  | nil => rfl
  | cons piece pieces ih =>
    rw [place, place, Position.after_down, ih]
    rfl

theorem token?_down (k : Nat) (placed : Position × Piece) :
    token? (Prod.map (Position.down k) id placed) = (token? placed).map (Token.down k) := by
  obtain ⟨p, ⟨_ | _ | _, text⟩⟩ := placed <;> rfl

theorem error?_down (k : Nat) (placed : Position × Piece) :
    error? (Prod.map (Position.down k) id placed) = (error? placed).map (ScanError.down k) := by
  obtain ⟨p, ⟨_ | _ | _, text⟩⟩ := placed <;> rfl

/-- The pieces of two texts with a line feed between them, each at its place. -/
theorem place_line (text line : List Char) :
    place .start (all (text ++ '\n' :: line)) =
      place .start (all text) ++ (.behind text, ⟨.blank, ['\n']⟩) ::
        (place .start (all line)).map (Prod.map (Position.down (text.count '\n' + 1)) id) := by
  rw [all_line, place_append, all_text, place, Position.after_start, ← place_down, ← Position.behind_line,
    ← Position.after_start, ← Position.after_start, Position.after_append]

end Piece

namespace Scan

theorem endMark_line (text line : List Char) :
    endMark (text ++ '\n' :: line) = (endMark line).down (text.count '\n' + 1) := by
  have place : Position.start.after (text ++ '\n' :: line) =
      (Position.start.after line).down (text.count '\n' + 1) := by
    rw [← Position.after_down, ← Position.behind_line, ← Position.after_start, ← Position.after_append,
      List.append_assoc, List.singleton_append]
  rw [endMark, place]
  rfl

/-- Two texts with a line feed between them hold what each of them holds alone, and the end mark of
the first goes. -/
theorem ofChars_line (text line : List Char) :
    (ofChars (text ++ '\n' :: line)).tokens =
        (ofChars text).tokens.dropLast ++ (ofChars line).tokens.map (Token.down (text.count '\n' + 1)) ∧
      (ofChars (text ++ '\n' :: line)).errors =
        (ofChars text).errors ++ (ofChars line).errors.map (ScanError.down (text.count '\n' + 1)) := by
  have tokens (k : Nat) : Piece.token? ∘ Prod.map (Position.down k) id = fun placed =>
      (Piece.token? placed).map (Token.down k) := funext (Piece.token?_down k)
  have errors (k : Nat) : Piece.error? ∘ Prod.map (Position.down k) id = fun placed =>
      (Piece.error? placed).map (ScanError.down k) := funext (Piece.error?_down k)
  constructor
  · simp only [ofChars]
    rw [Piece.place_line, List.filterMap_append, List.filterMap_cons_none rfl, List.filterMap_map, tokens,
      ← List.map_filterMap, List.dropLast_concat, List.append_assoc, List.map_append,
      List.map_singleton, endMark_line]
  · simp only [ofChars]
    rw [Piece.place_line, List.filterMap_append, List.filterMap_cons_none rfl, List.filterMap_map, errors,
      ← List.map_filterMap]

theorem ofSource_line (a b : String) :
    (ofSource (a ++ "\n" ++ b)).tokens =
        (ofSource a).tokens.dropLast ++ (ofSource b).tokens.map (Token.down (a.toList.count '\n' + 1)) ∧
      (ofSource (a ++ "\n" ++ b)).errors =
        (ofSource a).errors ++ (ofSource b).errors.map (ScanError.down (a.toList.count '\n' + 1)) := by
  have text : (a ++ "\n" ++ b).toList = a.toList ++ '\n' :: b.toList := by simp
  rw [ofSource, text]
  exact ofChars_line a.toList b.toList

/-- The end mark stands behind the other tokens. -/
theorem dropLast_append_endMark (text : List Char) :
    (ofChars text).tokens.dropLast ++ [endMark text] = (ofChars text).tokens := by
  rw [ofChars]
  exact congrArg (· ++ [endMark text]) List.dropLast_concat

/-- Where moving adds up, what is found on lines that begin one line further down is all of it moved
by a line. -/
theorem map_flatten_mapIdx {α : Type} {move : Nat → α → α} (adds : ∀ k, move 1 ∘ move k = move (k + 1))
    (found : List Char → List α) (lines : List (List Char)) :
    ((lines.mapIdx fun k line => (found line).map (move k)).flatten).map (move 1) =
      (lines.mapIdx fun k line => (found line).map (move (k + 1))).flatten := by
  have further (k : Nat) (line : List Char) :
      ((found line).map (move k)).map (move 1) = (found line).map (move (k + 1)) := by
    rw [List.map_map, adds]
  rw [List.map_flatten, List.mapIdx_eq_zipIdx_map, List.mapIdx_eq_zipIdx_map, List.map_map]
  exact congrArg (fun f => (lines.zipIdx.map f).flatten) (funext fun (line, k) => further k line)

/-- A text holds what its lines hold, each of them scanned alone and moved to its place. -/
theorem ofChars_lines (text : List Char) :
    (ofChars text).tokens = ((text.splitOn '\n').mapIdx fun k line =>
        (ofChars line).tokens.dropLast.map (Token.down k)).flatten ++ [endMark text] ∧
      (ofChars text).errors = ((text.splitOn '\n').mapIdx fun k line =>
        (ofChars line).errors.map (ScanError.down k)).flatten := by
  induction size : text.length using Nat.strongRecOn generalizing text with
  | _ size ih =>
    subst size
    by_cases more : '\n' ∈ text
    · obtain ⟨line, others, rfl, apart⟩ := List.eq_append_cons_of_mem more
      have shorter : others.length < (line ++ '\n' :: others).length := by
        rw [List.length_append, List.length_cons]
        omega
      obtain ⟨tokens, errors⟩ := ih _ shorter others rfl
      obtain ⟨tokens', errors'⟩ := ofChars_line line others
      have one : line.count '\n' + 1 = 1 := by rw [List.count_eq_zero.mpr apart]
      rw [one] at tokens' errors'
      rw [List.splitOn_append_cons_self_of_not_mem apart, List.mapIdx_cons, List.mapIdx_cons,
        List.flatten_cons, List.flatten_cons, tokens', errors', tokens, errors, List.map_append,
        map_flatten_mapIdx (Token.down_comp_down · 1),
        map_flatten_mapIdx (ScanError.down_comp_down · 1), endMark_line, one, Token.down_zero,
        ScanError.down_zero, List.map_id, List.map_id, List.append_assoc]
      exact ⟨rfl, rfl⟩
    · rw [List.splitOn_eq_singleton more, List.mapIdx_cons, List.mapIdx_cons, List.mapIdx_nil,
        List.mapIdx_nil, List.flatten_singleton, List.flatten_singleton, Token.down_zero,
        ScanError.down_zero, List.map_id, List.map_id, dropLast_append_endMark]
      exact ⟨rfl, rfl⟩

theorem isOk_tokenize (source : String) : (tokenize source).isOk = (ofSource source).errors.isEmpty := by
  rw [tokenize]
  split
  next clean => exact clean.symm
  next faults => exact (Bool.eq_false_iff.mpr faults).symm

/-- Two texts with a line feed between them are scanned apart: the tokens of the first without the end
mark and then those of the second, the errors likewise, and what the second holds only goes further
down. So there are no errors exactly where neither text has any, and what is told of a line is what is
told of it alone. -/
theorem lines_apart (a b : String) :
    (∃ tokens, (ofSource a).tokens = tokens ++ [endMark a.toList] ∧ (∀ token ∈ tokens, token.kind ≠ .eof) ∧
      (ofSource (a ++ "\n" ++ b)).tokens =
        tokens ++ (ofSource b).tokens.map (Token.down (a.toList.count '\n' + 1))) ∧
    (ofSource (a ++ "\n" ++ b)).errors =
      (ofSource a).errors ++ (ofSource b).errors.map (ScanError.down (a.toList.count '\n' + 1)) ∧
    (tokenize (a ++ "\n" ++ b)).isOk = ((tokenize a).isOk && (tokenize b).isOk) ∧
    ∀ source : String,
      (ofSource source).tokens = ((source.toList.splitOn '\n').mapIdx fun k line =>
        (ofChars line).tokens.dropLast.map (Token.down k)).flatten ++ [endMark source.toList] ∧
      (ofSource source).errors = ((source.toList.splitOn '\n').mapIdx fun k line =>
        (ofChars line).errors.map (ScanError.down k)).flatten := by
  obtain ⟨tokens, errors⟩ := ofSource_line a b
  obtain ⟨parts, laid, -, split, -⟩ := Lexical.exists_parts a
  rw [← Position.after_start] at split
  refine ⟨⟨_, split, laid.kind_ne_eof, ?_⟩, errors, ?_, fun source => ofChars_lines source.toList⟩
  · rw [tokens, split, List.dropLast_concat]
  · rw [isOk_tokenize, isOk_tokenize, isOk_tokenize, errors, Bool.eq_iff_iff, Bool.and_eq_true,
      List.isEmpty_iff, List.isEmpty_iff, List.isEmpty_iff, List.append_eq_nil_iff, List.map_eq_nil_iff]

/-- A string that is not closed takes nothing of the next line. -/
example : ofSource ("x \"y" ++ "\n" ++ "z") =
    ⟨[⟨.identifier, "x", ⟨1, 1⟩⟩, ⟨.identifier, "z", ⟨2, 1⟩⟩, ⟨.eof, "", ⟨2, 2⟩⟩],
      [⟨.unterminatedString, "\"y", ⟨1, 3⟩⟩]⟩ := by
  decide +kernel

end Scan

end LoxFrontEnd
