/-
# `Compendium.Proofs.Contents.Entry` — the lines of a list of contents

A line of a list is a dash with spaces before it, and a name behind it.  So it is no heading, nor is
it one without its indent.  Its other blanks come from the heading that it names, which is read from
a row of the text (`exists_row_of_mem_entries`); hence it is one row, and no blank ends it.
-/
import Compendium.Contents
import Compendium.Proofs.Heading.Line

namespace Compendium

variable {e : Entry} {t : Text}

namespace Entry

theorem mem_line_of_blank {c : Char} (hb : isBlank c = true) (hc : c ∈ e.line) :
    c = ' ' ∨ c ∈ e.text ∨ ∃ a, e.anchor = some a ∧ c ∈ a := by
  have hsign {d : Char} (hd : isBlank d = false) : c ≠ d := Text.ne_of_isBlank hb hd
  simp only [line, List.mem_append, List.mem_replicate, List.mem_cons, List.not_mem_nil,
    or_false] at hc
  rcases hc with (⟨-, hc⟩ | hc | hc) | hc
  · exact .inl hc
  · exact absurd hc (hsign (by decide))
  · exact .inl hc
  · cases ha : e.anchor with
    | none =>
        simp only [name, ha] at hc
        exact .inr (.inl hc)
    | some a =>
        simp only [name, ha, List.mem_append, List.mem_cons, List.not_mem_nil, or_false] at hc
        rcases hc with (((hc | hc) | hc | hc) | hc) | hc
        · exact absurd hc (hsign (by decide))
        · exact .inr (.inl hc)
        · exact absurd hc (hsign (by decide))
        · exact absurd hc (hsign (by decide))
        · exact .inr (.inr ⟨a, rfl, hc⟩)
        · exact absurd hc (hsign (by decide))

theorem dropWhile_line {p : Char → Bool} (hspace : p ' ' = true) (hdash : p '-' = false) :
    e.line.dropWhile p = '-' :: ' ' :: e.name := by
  have hindent : ∀ c ∈ List.replicate (e.depth * indentWidth) ' ', p c = true := by
    intro c hc
    rw [List.eq_of_mem_replicate hc]
    exact hspace
  rw [line, List.append_assoc, List.dropWhile_append_of_pos hindent]
  exact List.dropWhile_cons_of_neg (Bool.eq_false_iff.mp hdash)

theorem line_ne (e : Entry) : e.line ≠ [] := by
  rw [line, List.append_assoc]
  exact List.append_ne_nil_of_right_ne_nil _ (List.cons_ne_nil _ _)

theorem trimStart_line (e : Entry) : Text.trimStart e.line = '-' :: ' ' :: e.name :=
  dropWhile_line (by decide) (by decide)

theorem head?_trim_line (e : Entry) : (Text.trim e.line).head? = some '-' := by
  rw [Text.trim, trimStart_line]
  exact Text.head?_trimEnd (by decide) _

theorem ofLine?_line (e : Entry) : Heading.ofLine? e.line = none := by
  refine Heading.ofLine?_eq_none fun hhead => ?_
  have hdash := trimStart_line e
  rw [Heading.trimStart_of_mark hhead] at hdash
  rw [hdash] at hhead
  exact absurd hhead (by simp)

/-- A line ends where its heading's text does, or with the parenthesis of a link. -/
theorem getLast?_line (hne : e.text ≠ []) (htrim : Text.trim e.text = e.text) {c : Char}
    (hc : e.line.getLast? = some c) : isBlank c = false := by
  cases ha : e.anchor with
  | none =>
      refine (Text.trim_eq_self_iff.mp htrim).2 c ?_
      obtain ⟨u, d, hd⟩ := (List.eq_nil_or_concat' e.text).resolve_left hne
      rw [line, name, ha, hd, ← List.append_assoc, List.getLast?_concat] at hc
      rw [hd, List.getLast?_concat, hc]
  | some a =>
      rw [line, name, ha, ← List.append_assoc, List.getLast?_concat] at hc
      rw [← Option.some.inj hc]
      decide

end Entry

/-! ## The entries of a text -/

theorem exists_row_of_mem_entries (he : e ∈ entries (headings t)) :
    ∃ r ∈ t.rows, ∃ h, Heading.ofLine? r.dropReturn = some h ∧ e.text = h.text ∧
      e.anchor = h.anchor := by
  obtain ⟨h, hh, rfl⟩ := List.mem_map.mp he
  have hmem := List.mem_of_mem_tail hh
  rw [headings, filterMap_lines_rows rfl] at hmem
  obtain ⟨r, hr, hfind⟩ := List.mem_flatMap.mp hmem
  exact ⟨r, hr, h, Option.mem_toList.mp hfind, rfl, rfl⟩

theorem not_mem_line_of_blank {c : Char} (hb : isBlank c = true) (hspace : c ≠ ' ')
    (hc : ∀ r ∈ t.rows, c ∉ r) (he : e ∈ entries (headings t)) : c ∉ e.line := by
  obtain ⟨r, hr, h, hh, htext, hanchor⟩ := exists_row_of_mem_entries he
  intro hm
  have hrow := (Entry.mem_line_of_blank hb hm).resolve_left hspace
  rw [htext, hanchor] at hrow
  exact hc r hr (Text.mem_of_mem_dropReturn (Heading.mem_of_ofLine? hh hrow))

theorem not_mem_line (he : e ∈ entries (headings t)) : '\n' ∉ e.line :=
  not_mem_line_of_blank (by decide) (by decide) (fun _ => Text.not_mem_of_mem_rows) he

theorem getLast?_line_of_mem (he : e ∈ entries (headings t)) {c : Char}
    (hc : e.line.getLast? = some c) : isBlank c = false := by
  obtain ⟨r, -, h, hh, htext, -⟩ := exists_row_of_mem_entries he
  obtain ⟨hne, htrim⟩ := Heading.text_of_ofLine? hh
  rw [← htext] at hne htrim
  exact e.getLast?_line hne htrim hc

/-! ## A list of contents, row by row

The rows of a list of contents are the lines of its entries, one for each heading but the first.
This needs two things of the headings that are read from a text: no line of an entry is broken in
two, whatever line endings there are (`not_mem_line`), and none ends with a blank
(`getLast?_line_of_mem`).  So the breaks that the lines are written with are the only ones, and the
blanks at the end, which are cut off, are the last break alone (`ofText_concat_break`). -/

/-! ### Rows with breaks behind them -/

namespace Text

theorem rows_flatMap_break {rs : List Text} (h : ∀ r ∈ rs, '\n' ∉ r) :
    rows (rs.flatMap (· ++ ['\n'])) = rs ++ [[]] := by
  induction rs with
  | nil => rfl
  | cons r rs ih =>
      obtain ⟨hr, hrs⟩ := List.forall_mem_cons.mp h
      rw [List.flatMap_cons, List.append_assoc, List.singleton_append, rows_append_break,
        rows_of_row hr, ih hrs]
      rfl

theorem trimEnd_flatMap_break {rs : List Text} (hne : rs ≠ [])
    (h : ∀ r ∈ rs, r ≠ [] ∧ ∀ c, r.getLast? = some c → isBlank c = false) :
    trimEnd (rs.flatMap (· ++ ['\n'])) ++ ['\n'] = rs.flatMap (· ++ ['\n']) := by
  obtain ⟨init, r, rfl⟩ := (List.eq_nil_or_concat' rs).resolve_left hne
  obtain ⟨hr, hlast⟩ := h r List.mem_concat_self
  have hself : trimEnd (init.flatMap (· ++ ['\n']) ++ r) = init.flatMap (· ++ ['\n']) ++ r :=
    trimEnd_eq_self fun c hc => by
      rw [List.getLast?_append_of_ne_nil _ hr] at hc
      exact hlast c hc
  rw [List.flatMap_append, List.flatMap_singleton, ← List.append_assoc, trimEnd,
    dropEndWhile_concat_of_pos _ (by decide), ← trimEnd, hself]

end Text

/-! ### The lines of the entries -/

namespace Contents

def listed (t : Text) : List Text := (entries (headings t)).map Entry.line

theorem not_mem_of_mem_listed {r : Text} (hr : r ∈ listed t) : '\n' ∉ r := by
  obtain ⟨e, he, rfl⟩ := List.mem_map.mp hr
  exact not_mem_line he

theorem getLast?_of_mem_listed {r : Text} (hr : r ∈ listed t) :
    r ≠ [] ∧ ∀ c, r.getLast? = some c → isBlank c = false := by
  obtain ⟨e, he, rfl⟩ := List.mem_map.mp hr
  exact ⟨e.line_ne, fun c => getLast?_line_of_mem he⟩

theorem ofText_eq_trimEnd (t : Text) :
    ofText t = Text.trimEnd ((listed t).flatMap (· ++ ['\n'])) := by
  rw [listed, List.flatMap_map]
  rfl

/-- All that is cut off at the end of a list of contents is the last break. -/
theorem ofText_concat_break (h : listed t ≠ []) :
    ofText t ++ ['\n'] = (listed t).flatMap (· ++ ['\n']) := by
  rw [ofText_eq_trimEnd]
  exact Text.trimEnd_flatMap_break h fun _ => getLast?_of_mem_listed

theorem ofText_of_listed (h : listed t = []) : ofText t = [] := by
  rw [ofText_eq_trimEnd, h]
  rfl

theorem rows_ofText (h : listed t ≠ []) : (ofText t).rows = listed t := by
  have hrows := Text.rows_append_break (ofText t) []
  rw [ofText_concat_break h, Text.rows_flatMap_break fun _ => not_mem_of_mem_listed,
    Text.rows_nil] at hrows
  exact (List.append_cancel_right hrows).symm

theorem not_mem_ofText_of_blank {c : Char} (hb : isBlank c = true) (hspace : c ≠ ' ')
    (hbreak : c ≠ '\n') (hc : c ∉ t) : c ∉ ofText t := by
  intro hm
  by_cases h : listed t = []
  · rw [ofText_of_listed h] at hm
    exact List.not_mem_nil hm
  · obtain ⟨r, hr, hm⟩ := (Text.exists_mem_rows_iff hbreak).mpr hm
    rw [rows_ofText h] at hr
    obtain ⟨e, he, rfl⟩ := List.mem_map.mp hr
    exact not_mem_line_of_blank hb hspace ((Text.not_mem_iff hbreak).mp hc) he hm

theorem getElem?_listed (t : Text) (k : Nat) :
    (listed t)[k]? = (headings t)[k + 1]?.map fun h =>
      Entry.line ⟨h.level - baseLevel (headings t), h.text, h.anchor⟩ := by
  rw [listed, entries, List.map_map, List.getElem?_map, List.getElem?_tail]
  rfl

/-- A list of contents has a row for each heading but the first, in order.  The row is indented by
four spaces for each level below the level that the list begins at, and names the heading, as a link
if it has an anchor.  Trimming takes nothing but the last break away. -/
theorem listing_ofText (t : Text) :
    let hs := headings t
    let base := if 2 ≤ hs.countP (·.level == 1) then 1 else 2
    ∃ rows : List Text,
      rows.length = hs.length - 1 ∧
      (∀ k : Nat, rows[k]? = hs[k + 1]?.map fun h =>
        List.replicate (4 * (h.level - base)) ' ' ++ ['-', ' '] ++
          match h.anchor with
          | some a => ['['] ++ h.text ++ [']', '('] ++ a ++ [')']
          | none => h.text) ∧
      (if rows = [] then ofText t = [] else (ofText t).rows = rows) ∧
      ofText t = Text.trimEnd (rows.flatMap (· ++ ['\n'])) ∧
      rows.flatMap (· ++ ['\n']) = ofText t ++ if rows = [] then [] else ['\n'] := by
  intro hs base
  refine ⟨listed t, ?_, fun k => ?_, ?_, ofText_eq_trimEnd t, ?_⟩
  · rw [listed, entries, List.length_map, List.length_map, List.length_tail]
  · rw [getElem?_listed]
    refine congrArg (hs[k + 1]?.map ·) (funext fun h => ?_)
    rw [Entry.line, Nat.mul_comm, Entry.name]
    rfl
  · split
    · next h => exact ofText_of_listed h
    · next h => exact rows_ofText h
  · split
    · next h => rw [ofText_of_listed h, h]; rfl
    · next h => exact (ofText_concat_break h).symm

/-- The first row of a list may be indented, and a level above the first one is not. -/
example : Contents.ofText "## A\n### B \x7bb\x7d\r\n\n# C\t\r\n#D".toList =
    "    - [B](b)\n- C".toList := by
  decide +kernel

end Contents

end Compendium
