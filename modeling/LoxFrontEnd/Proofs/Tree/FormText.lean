import LoxFrontEnd.Tree.Form
import LoxFrontEnd.Proofs.Lexical.Lexemes

/-!
Forms can be read in one way only. A word ends where a blank or a closing parenthesis stands, and so does a
string, since it has no quote inside; so the text of a form tells where each of its parts ends.
-/

namespace LoxFrontEnd

namespace Form

open Lexical

/-- The characters of a word that is not in quotes. -/
def isBare (c : Char) : Bool := c ∉ [' ', '(', ')', '"', '\n']

/-- Words without blanks and parentheses, and strings on one line. -/
inductive IsWord (word : String) : Prop
  | bare : word.toList ≠ [] → (∀ c ∈ word.toList, isBare c = true) → IsWord word
  | quoted {body} : word.toList = '"' :: body ++ ['"'] → (∀ c ∈ body, Inside c) → IsWord word

mutual

/-- All words of a form are words. -/
def Worded : Form → Prop
  | .atom word => IsWord word
  | .group parts => WordedAll parts

def WordedAll : List Form → Prop
  | [] => True
  | part :: parts => part.Worded ∧ WordedAll parts

end

/-- What may stand behind a form: nothing, a blank or a closing parenthesis. -/
def Ends (rest : List Char) : Prop := ∀ c ∈ rest.head?, c = ' ' ∨ c = ')'

theorem Ends.not_bare {rest : List Char} (ends : Ends rest) : ∀ c ∈ rest.head?, isBare c = false := by
  intro c first
  rcases ends c first with rfl | rfl <;> rfl

section Words

variable {word word' : String} {rest rest' : List Char}

theorem IsWord.plain (known : word.toList ≠ [] ∧ word.toList.all isBare = true) : IsWord word :=
  .bare known.1 (List.all_eq_true.mp known.2)

theorem IsWord.first (known : IsWord word) :
    ∃ c others, word.toList = c :: others ∧ (c = '"' ∨ isBare c = true) := by
  cases known with
  | bare some all =>
    obtain ⟨c, others, same⟩ := List.exists_cons_of_ne_nil some
    exact ⟨c, others, same, Or.inr (all c (same ▸ List.mem_cons_self))⟩
  | quoted same _ => exact ⟨'"', _, same, Or.inl rfl⟩

/-- A string ends at its second quote. -/
theorem quoted_unique {body body' : List Char} (inside : ∀ c ∈ body, Inside c)
    (inside' : ∀ c ∈ body', Inside c)
    (same : '"' :: body ++ ['"'] ++ rest = '"' :: body' ++ ['"'] ++ rest') :
    body = body' ∧ rest = rest' := by
  have notQuote {body : List Char} (inside : ∀ c ∈ body, Inside c) : ∀ c ∈ body, decide (c ≠ '"') = true :=
    fun c member => decide_eq_true (inside c member).1
  have quote (rest : List Char) : ∀ c ∈ ('"' :: rest).head?, decide (c ≠ '"') = false := by
    rintro c ⟨⟩
    rfl
  simp only [List.cons_append, List.append_assoc, List.nil_append, List.cons.injEq, true_and] at same
  obtain ⟨bodies, rests⟩ := run_unique (notQuote inside) (quote rest) (notQuote inside') (quote rest') same
  exact ⟨bodies, (List.cons.inj rests).2⟩

theorem IsWord.unique (known : IsWord word) (known' : IsWord word') (ends : Ends rest) (ends' : Ends rest')
    (same : word.toList ++ rest = word'.toList ++ rest') : word = word' ∧ rest = rest' := by
  have apart {word word' : String} {body rest rest' : List Char} (some : word.toList ≠ [])
      (bare : ∀ c ∈ word.toList, isBare c = true) (quoted : word'.toList = '"' :: body ++ ['"'])
      (same : word.toList ++ rest = word'.toList ++ rest') : False := by
    obtain ⟨c, others, chars⟩ := List.exists_cons_of_ne_nil some
    rw [chars, quoted] at same
    obtain ⟨rfl, -⟩ := List.cons.inj same
    cases bare _ (chars ▸ List.mem_cons_self)
  cases known with
  | bare some bare =>
    cases known' with
    | bare some' bare' =>
      obtain ⟨words, rests⟩ := run_unique bare ends.not_bare bare' ends'.not_bare same
      exact ⟨String.toList_inj.mp words, rests⟩
    | quoted quoted' _ => exact (apart some bare quoted' same).elim
  | quoted quoted inside =>
    cases known' with
    | bare some' bare' => exact (apart some' bare' quoted same.symm).elim
    | quoted quoted' inside' =>
      rw [quoted, quoted'] at same
      obtain ⟨rfl, rests⟩ := quoted_unique inside inside' same
      exact ⟨String.toList_inj.mp (quoted.trans quoted'.symm), rests⟩

theorem IsWord.newline (known : IsWord word) : '\n' ∉ word.toList := by
  intro member
  cases known with
  | bare _ bare => cases bare _ member
  | quoted quoted inside =>
    rw [quoted] at member
    simp only [List.cons_append, List.mem_cons, List.mem_append, List.not_mem_nil, or_false] at member
    rcases member with quote | inner | quote
    · cases quote
    · exact (inside _ inner).2 rfl
    · cases quote

end Words

/-- The text of the parts behind the first one. -/
def behind (parts : List Form) : List Char := parts.flatMap fun part => ' ' :: part.text.toList

theorem toList_texts (part : Form) (parts : List Form) :
    (texts (part :: parts)).toList = part.text.toList ++ behind parts := by
  induction parts generalizing part with
  | nil => rw [texts, behind, List.flatMap_nil, List.append_nil]
  | cons next parts ih =>
    rw [texts, String.toList_append, String.toList_append, ih, behind, behind, List.flatMap_cons,
      List.append_assoc]
    rfl

theorem toList_group (parts : List Form) (rest : List Char) :
    (Form.group parts).text.toList ++ rest = '(' :: ((texts parts).toList ++ ')' :: rest) := by
  rw [text, String.toList_append, String.toList_append, List.append_assoc, List.append_assoc]
  rfl

theorem first_text {form : Form} (worded : form.Worded) :
    ∃ c others, form.text.toList = c :: others ∧ c ≠ ')' := by
  match form with
  | .atom word =>
    obtain ⟨c, others, same, quote | bare⟩ := IsWord.first worded
    · exact ⟨c, others, same, quote ▸ by decide⟩
    · refine ⟨c, others, same, ?_⟩
      rintro rfl
      cases bare
  | .group parts => exact ⟨'(', _, (List.append_nil _).symm.trans (toList_group parts []), by decide⟩

theorem ends_behind (parts : List Form) (rest : List Char) : Ends (behind parts ++ ')' :: rest) := by
  cases parts with
  | nil =>
    rintro c ⟨⟩
    exact Or.inr rfl
  | cons =>
    rintro c ⟨⟩
    exact Or.inl rfl

/-- No word begins as a group does. -/
theorem IsWord.not_group {word : String} {parts : List Form} {rest rest' : List Char}
    (known : IsWord word) :
    word.toList ++ rest ≠ (Form.group parts).text.toList ++ rest' := by
  intro same
  obtain ⟨c, others, chars, first⟩ := known.first
  rw [chars, toList_group] at same
  obtain ⟨rfl, -⟩ := List.cons.inj same
  rcases first with quote | bare
  · cases quote
  · cases bare

mutual

/-- In front of what may stand behind a form, no two forms have the same text. -/
theorem text_unique (form form' : Form) (worded : form.Worded) (worded' : form'.Worded)
    {rest rest' : List Char} (ends : Ends rest) (ends' : Ends rest')
    (same : form.text.toList ++ rest = form'.text.toList ++ rest') :
    form = form' ∧ rest = rest' := by
  match form, form' with
  | .atom word, .atom word' =>
    obtain ⟨rfl, rests⟩ := IsWord.unique worded worded' ends ends' same
    exact ⟨rfl, rests⟩
  | .atom word, .group parts => exact absurd same (IsWord.not_group worded)
  | .group parts, .atom word => exact absurd same.symm (IsWord.not_group worded')
  | .group parts, .group parts' =>
    rw [toList_group, toList_group] at same
    obtain ⟨rfl, rests⟩ := texts_unique parts parts' worded worded' (List.cons.inj same).2
    exact ⟨rfl, rests⟩

theorem texts_unique (parts parts' : List Form) (worded : WordedAll parts) (worded' : WordedAll parts')
    {rest rest' : List Char}
    (same : (texts parts).toList ++ ')' :: rest = (texts parts').toList ++ ')' :: rest') :
    parts = parts' ∧ rest = rest' := by
  -- The first part does not begin with the parenthesis that closes an empty group.
  have some {part : Form} {parts : List Form} {rest rest' : List Char} (worded : part.Worded)
      (same : ')' :: rest = (texts (part :: parts)).toList ++ rest') : False := by
    obtain ⟨c, others, chars, other⟩ := first_text worded
    rw [toList_texts, chars] at same
    exact other (List.cons.inj same).1.symm
  match parts, parts' with
  | [], [] => exact ⟨rfl, (List.cons.inj same).2⟩
  | [], part :: parts => exact (some worded'.1 same).elim
  | part :: parts, [] => exact (some worded.1 same.symm).elim
  | part :: parts, part' :: parts' =>
    rw [toList_texts, toList_texts, List.append_assoc, List.append_assoc] at same
    obtain ⟨rfl, others⟩ := text_unique part part' worded.1 worded'.1 (ends_behind parts _)
      (ends_behind parts' _) same
    obtain ⟨rfl, rests⟩ := behind_unique parts parts' worded.2 worded'.2 others
    exact ⟨rfl, rests⟩

theorem behind_unique (parts parts' : List Form) (worded : WordedAll parts) (worded' : WordedAll parts')
    {rest rest' : List Char} (same : behind parts ++ ')' :: rest = behind parts' ++ ')' :: rest') :
    parts = parts' ∧ rest = rest' := by
  match parts, parts' with
  | [], [] => exact ⟨rfl, (List.cons.inj same).2⟩
  | [], _ :: _ => cases (List.cons.inj same).1
  | _ :: _, [] => cases (List.cons.inj same).1
  | part :: parts, part' :: parts' =>
    simp only [behind, List.flatMap_cons, List.cons_append, List.append_assoc, List.cons.injEq,
      true_and] at same
    obtain ⟨rfl, others⟩ := text_unique part part' worded.1 worded'.1 (ends_behind parts _)
      (ends_behind parts' _) same
    obtain ⟨rfl, rests⟩ := behind_unique parts parts' worded.2 worded'.2 others
    exact ⟨rfl, rests⟩

end

/-- The text of a form determines the form. -/
theorem text_inj {form form' : Form} (worded : form.Worded) (worded' : form'.Worded)
    (same : form.text = form'.text) :
    form = form' := by
  have nothing : Ends [] := fun _ first => absurd first (Option.not_mem_none _)
  exact (text_unique form form' worded worded' nothing nothing (congrArg (String.toList · ++ []) same)).1

/-- So do the texts of forms, each on its own, those forms. -/
theorem map_text_inj {fs gs : List Form} (worded : WordedAll fs) (worded' : WordedAll gs)
    (same : fs.map text = gs.map text) : fs = gs := by
  induction fs generalizing gs with
  | nil => exact (List.map_eq_nil_iff.mp same.symm).symm
  | cons form fs ih =>
    obtain ⟨form', gs, rfl, first, others⟩ := List.map_eq_cons_iff.mp same.symm
    rw [text_inj worded.1 worded'.1 first.symm, ih worded.2 worded'.2 others.symm]

mutual

/-- The text of a form stands on one line. -/
theorem newline_not_mem (form : Form) (worded : form.Worded) : '\n' ∉ form.text.toList := by
  match form with
  | .atom word => exact IsWord.newline worded
  | .group [] => decide
  | .group (part :: parts) =>
    have group := toList_group (part :: parts) []
    rw [List.append_nil, toList_texts] at group
    rw [group]
    simp only [List.mem_cons, List.mem_append, List.not_mem_nil, or_false, not_or]
    exact ⟨by decide, ⟨newline_not_mem part worded.1, newline_not_mem_behind parts worded.2⟩, by decide⟩

theorem newline_not_mem_behind (parts : List Form) (worded : WordedAll parts) : '\n' ∉ behind parts := by
  match parts with
  | [] => exact List.not_mem_nil
  | part :: parts =>
    rw [behind, List.flatMap_cons, List.cons_append, List.mem_cons, List.mem_append, not_or, not_or]
    exact ⟨by decide, newline_not_mem part worded.1, newline_not_mem_behind parts worded.2⟩

end

end Form

end LoxFrontEnd
