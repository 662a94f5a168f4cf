/-
# `Compendium.Proofs.Assembly.Rows` — what the rows of the documents say of the rows of an assembly

Assembling puts rows together and takes blanks off their ends.  So whatever is kept by losing a
blank holds of all rows of an expanded document, if it holds of the rows of all documents that it
leads to, directives apart (`rows_expand`), and it holds of all rows of an assembly, if it holds of
the lines of the list of contents as well (`rows_finish`).

`Throughout` is for what is said of the documents as they are read.  Restyling comes in between; it
changes heading lines only, and what it makes of them has no blank at either end.
-/
import Compendium.Proofs.Assembly.IncludeGraph
import Compendium.Proofs.Contents.Reading
import Compendium.Proofs.Directive

namespace Compendium

open Relation (ReflTransGen)

variable {P Q : Text → Prop} {t : Text} {opts : Options} {x : List Omission}

/-! ## Expanding -/

theorem kept_not_mem (d : Char) : Kept fun r => d ∉ r where
  nil := List.not_mem_nil
  tail := fun _ h hm => h (List.mem_cons_of_mem _ hm)
  init := fun _ h hm => h (List.mem_append_left _ hm)

namespace Store

variable {store : Store} {base path : Path} {c : Chain}

/-- `P` holds of the rows of all prepared documents that `path` leads to, directives apart. -/
def Beside (store : Store) (opts : Options) (base path : Path) (P : Text → Prop) : Prop :=
  ∀ p raw included, ReflTransGen (store.Includes opts base) path p → store.read p = .ok raw →
    ∀ r ∈ Text.rows (opts.prepare included raw), Directive.ofLine? r = none → P r

theorem Beside.tail (h : store.Beside opts base path P) {q : Path}
    (hq : store.Includes opts base path q) : store.Beside opts base q P :=
  fun p raw included hp => h p raw included (.head hq hp)

theorem rows_expand (hP : Kept P) (depth : Nat) (hdoc : store.Beside opts base path P)
    (h : Walk.Steady c (store.expand opts base depth path) (.ok t) x) : ∀ r ∈ t.rows, P r := by
  induction depth generalizing path c t x with
  | zero => exact absurd h not_steady_expand_zero
  | succ depth ih =>
      obtain ⟨raw, content, added, hr, hf, ht, -⟩ := expand_eq_ok_iff.mp h
      have hnested : ∀ d ∈ directives (opts.prepare (!c.isEmpty) raw), ∀ u, content d = some u →
          ∀ r ∈ u.rows, P r := by
        intro d hd u hu
        have hfill := hf d hd
        rw [hu] at hfill
        cases hfill with
        | expanded _ he => exact ih (hdoc.tail ⟨raw, _, hr, d, hd, rfl⟩) he
      have hshows : (Reading.ofKept hP).Shows ((opts.prepare (!c.isEmpty) raw).splice content)
          ((Text.rows (opts.prepare (!c.isEmpty) raw)).flatMap
            ((Reading.ofKept hP).atRow fun _ => [])) :=
        Text.shows_splice (not_mem_prepare opts _ raw) (hdoc path raw _ .refl hr)
          (fun d hd u hu => hP.shows (hnested d hd u hu)) fun _ _ _ => rfl
      exact ht ▸ hshows.fit

theorem not_mem_expand_of_prepare {d : Char} (hd : d ≠ '\n')
    (hprepare : ∀ included raw, d ∉ opts.prepare included raw) {depth : Nat}
    (h : Walk.Steady c (store.expand opts base depth path) (.ok t) x) : d ∉ t := by
  have hdoc : store.Beside opts base path fun r => d ∉ r := by
    intro p raw included _ _ r hr _
    exact (Text.not_mem_iff hd).mp (hprepare included raw) r hr
  exact (Text.not_mem_iff hd).mpr (rows_expand (kept_not_mem d) depth hdoc h)

theorem not_mem_expand {depth : Nat}
    (h : Walk.Steady c (store.expand opts base depth path) (.ok t) x) : '\r' ∉ t :=
  not_mem_expand_of_prepare (by decide) (not_mem_prepare opts) h

theorem tab_not_mem_expand {depth : Nat}
    (h : Walk.Steady c (store.expand opts base depth path) (.ok t) x) : '\t' ∉ t :=
  not_mem_expand_of_prepare (by decide) (tab_not_mem_prepare opts) h

theorem expansion_of_assemble {depth : Nat} {input : Path} {a : Assembly}
    (h : store.assemble opts depth input = .ok a) :
    ∃ t x, Walk.Steady .empty (store.expand opts (baseFolder input) depth input.canonical)
        (.ok t) x ∧ a = opts.finish t x := by
  obtain ⟨r, x, hx⟩ := exists_steady_expand store opts (baseFolder input) depth input.canonical
    .empty
  have hassemble := assemble_of_steady hx
  rw [h] at hassemble
  cases r with
  | error e => exact absurd hassemble nofun
  | ok t => exact ⟨t, x, hx, Except.ok.inj hassemble⟩

end Store

/-! ## Finishing -/

/-- The assembled text with its list of contents, before the markers are taken out. -/
def Options.placed (opts : Options) (t : Text) : Text :=
  if opts.contents then Contents.place (Contents.ofText t) t else t

section Finish

variable {β : Type} {R : Reading β} {out : List β}

theorem shows_placed (hR : R.NeedsMark) (h : R.Shows t out)
    (hl : ∀ e ∈ entries (headings t), R.Shows e.line []) (ht : '\r' ∉ t) :
    R.Shows (opts.placed t) out := by
  rw [Options.placed]
  split
  · exact h.place hR (Reading.shows_ofText hl) ht
  · exact h

theorem rows_placed (hP : Kept P) (ht : '\r' ∉ t) (h : ∀ r ∈ t.rows, P r)
    (hl : ∀ e ∈ entries (headings t), P e.line) : ∀ r ∈ Text.rows (opts.placed t), P r := by
  refine (shows_placed (Reading.needsMark_ofKept hP) (hP.shows h) (fun e he => ?_) ht).fit
  exact (Reading.ofKept hP).shows_row (not_mem_line he) (hl e he)

theorem rows_finish (hP : Kept P) (ht : '\r' ∉ t) (h : ∀ r ∈ t.rows, P r)
    (hl : ∀ e ∈ entries (headings t), P e.line) :
    ∀ r ∈ Text.rows (opts.finish t x).content, P r :=
  ((hP.shows (rows_placed hP ht h hl)).clear (Reading.needsMark_ofKept hP)).fit

/-- Finishing brings in no blanks but spaces and breaks. -/
theorem not_mem_finish_of_blank {c : Char} (hb : isBlank c = true) (hspace : c ≠ ' ')
    (hbreak : c ≠ '\n') (ht : '\r' ∉ t) (hc : c ∉ t) : c ∉ (opts.finish t x).content := by
  have hrows := (Text.not_mem_iff hbreak).mp hc
  exact (Text.not_mem_iff hbreak).mpr (rows_finish (kept_not_mem c) ht hrows
    fun e he => not_mem_line_of_blank hb hspace hrows he)

theorem not_mem_finish (ht : '\r' ∉ t) : '\r' ∉ (opts.finish t x).content :=
  not_mem_finish_of_blank (by decide) (by decide) (by decide) ht ht

end Finish

/-! ## Documents of a library -/

namespace Library

variable {lib : Library} {input : Path}

/-- `P` holds of the rows of all documents that the input leads to. -/
def Throughout (lib : Library) (opts : Options) (input : Path) (P : Text → Prop) : Prop :=
  ∀ p raw, ReflTransGen (lib.store.Includes opts (Store.baseFolder input)) input.canonical p →
    lib.store.read p = .ok raw → ∀ r ∈ Text.rows (Text.uniform raw), P r

theorem throughout_of_entries (h : ∀ e ∈ lib.entries, ∀ r ∈ Text.rows (Text.uniform e.2), P r) :
    lib.Throughout opts input P :=
  fun _ _ _ hr => h _ (mem_of_read hr)

theorem beside_of_entries (h : ∀ e ∈ lib.entries, ∀ included,
    ∀ r ∈ Text.rows (opts.prepare included e.2), Directive.ofLine? r = none → P r)
    (base path : Path) : lib.store.Beside opts base path P :=
  fun _ _ included _ hr => h _ (mem_of_read hr) included

theorem Throughout.beside (hQ : Kept Q) (h : lib.Throughout opts input P)
    (hPQ : ∀ (style : HeadingStyle) (r : Text), '\n' ∉ r → P r → Q (style.restyleLine r)) :
    lib.store.Beside opts (Store.baseFolder input) input.canonical Q := by
  intro p raw included hp hr r hmem _
  have hrows : ∀ r ∈ Text.rows ((lines (Text.uniform raw)).flatMap fun l =>
      (opts.style included).restyleLine l.body ++ l.ending.text), Q r := by
    rw [HeadingStyle.rows_restyled _ (Text.not_mem_uniform raw)]
    intro s hs
    obtain ⟨q, hq, rfl⟩ := List.mem_map.mp hs
    exact hPQ _ q (Text.not_mem_of_mem_rows hq) (h p raw hp hr q hq)
  exact (hQ.shows hrows).trim.fit r hmem

theorem expansion_of_assemble {a : Assembly} (h : lib.assemble opts input = .ok a) :
    ∃ t x, Walk.Steady .empty
        (lib.store.expand opts (Store.baseFolder input) (lib.size + 1) input.canonical) (.ok t) x ∧
      a = opts.finish t x := by
  have hassemble := mapError_assemble lib opts input
  rw [h] at hassemble
  exact Store.expansion_of_assemble hassemble.symm

end Library

/-! ## The normal form

The documents are made uniform when they are read.  After that no move brings a carriage return or a
tab back: restyling writes spaces and slugs (`tab_not_mem_prepare`), expanding puts rows together
(`Store.tab_not_mem_expand`), and finishing adds the lines of the list, whose blanks are spaces or
come from a heading (`Options.normal_finish`). -/

/-- An assembly in normal form. -/
structure Assembly.Normal (a : Assembly) : Prop where
  content : '\r' ∉ a.content ∧ '\t' ∉ a.content
  leading : ∀ c, a.content.head? = some c → isBlank c = false
  trailing : ∀ c, a.content.getLast? = some c → isBlank c = false
  contents : '\r' ∉ a.contents ∧ '\t' ∉ a.contents
  rows : a.contents ≠ [] → ∀ r ∈ a.contents.rows,
    r ≠ [] ∧ Heading.ofLine? r = none ∧ Directive.ofLine? r = none
  uniform : Text.uniform a.content = a.content ∧ Text.uniform a.contents = a.contents

theorem Entry.directive?_line (e : Entry) : Directive.ofLine? e.line = none := by
  refine Option.eq_none_iff_forall_ne_some.mpr fun d hd => ?_
  have hhead := Directive.head?_of_ofLine? hd
  rw [← Directive.trimStart_of_ofLine? hd, e.trimStart_line] at hhead
  exact absurd hhead (by simp)

theorem Contents.rows_of_ne_nil {t r : Text} (h : ofText t ≠ []) (hr : r ∈ (ofText t).rows) :
    r ≠ [] ∧ Heading.ofLine? r = none ∧ Directive.ofLine? r = none := by
  rw [rows_ofText fun hnil => h (ofText_of_listed hnil)] at hr
  obtain ⟨e, -, rfl⟩ := List.mem_map.mp hr
  exact ⟨e.line_ne, e.ofLine?_line, e.directive?_line⟩

theorem Options.normal_finish {t : Text} (hreturn : '\r' ∉ t) (htab : '\t' ∉ t) (opts : Options)
    (x : List Omission) : (opts.finish t x).Normal := by
  have hcontent : '\r' ∉ (opts.finish t x).content ∧ '\t' ∉ (opts.finish t x).content :=
    ⟨not_mem_finish hreturn,
      not_mem_finish_of_blank (by decide) (by decide) (by decide) hreturn htab⟩
  have hcontents : '\r' ∉ Contents.ofText t ∧ '\t' ∉ Contents.ofText t :=
    ⟨Contents.not_mem_ofText_of_blank (by decide) (by decide) (by decide) hreturn,
      Contents.not_mem_ofText_of_blank (by decide) (by decide) (by decide) htab⟩
  obtain ⟨hleading, htrailing⟩ := Text.trim_eq_self_iff.mp
    (Text.trim_trim (Marker.blankOut (opts.placed t)))
  exact {
    content := hcontent
    leading := hleading
    trailing := htrailing
    contents := hcontents
    rows := fun hne _ => Contents.rows_of_ne_nil hne
    uniform := ⟨Text.uniform_eq_self_iff.mpr hcontent, Text.uniform_eq_self_iff.mpr hcontents⟩ }

/-- Every assembly is normal, from whatever store. -/
theorem Store.normal_assemble {store : Store} {opts : Options} {depth : Nat} {input : Path}
    {a : Assembly} (h : store.assemble opts depth input = .ok a) : a.Normal := by
  obtain ⟨t, x, hx, rfl⟩ := expansion_of_assemble h
  exact opts.normal_finish (not_mem_expand hx) (tab_not_mem_expand hx) x

/-- Every kind of line ending, tabs in a heading and at an end, and a heading with an anchor. -/
def Library.untidy : Library := .ofList
  [(⟨"root.md".toList⟩, "[[_TOC_]]\r\n# A\tB\r\n:[c](c.md)\r\n".toList),
    (⟨"c.md".toList⟩, "## C\t\x7bc\x7d\r\rtext\t\r\n".toList)]

theorem Store.normal_assemble_untidy :
    let opts : Options := ⟨true, true, ⟨"/r".toList⟩⟩
    ∃ a, Library.untidy.store.assemble opts 2 ⟨"./root.md".toList⟩ = .ok a ∧
      a.content = "- [C](c)\n\n# A    B \x7b#a----b\x7d\n\n### C \x7bc\x7d\n\ntext".toList ∧
      a.contents = "    - [C](c)".toList ∧ a.Normal := by
  intro opts
  have h : Library.untidy.store.assemble opts 2 ⟨"./root.md".toList⟩ =
      .ok ⟨"- [C](c)\n\n# A    B \x7b#a----b\x7d\n\n### C \x7bc\x7d\n\ntext".toList,
        "    - [C](c)".toList, []⟩ := by decide +kernel
  exact ⟨_, h, rfl, rfl, normal_assemble h⟩

end Compendium
