import Mnemonic.Proofs.Listing.Lines
import Mnemonic.Proofs.Listing.Saying
import Mnemonic.Proofs.Reading.Lines

set_option autoImplicit false

/-!
# Reading a listing again

A listing whose stamps are deleted is a text, and it can be read. It says what the program says that was
listed: the words are the same, only that the line feeds in values are spelled out. To list it once more
changes nothing any more.

Main statement: `read_listing`.
-/

namespace Mnemonic.Program

open Text Listing

/-- A program is read from a text that says words, and they are its words. -/
theorem exists_of_says {t : List Char} {w : Wording} {after : Option Section}
    (h : Outline.Says none t w after) :
    ∃ p, read (String.ofList t) = .ok p ∧ p.wording t = .ok w := by
  obtain ⟨ps, hps, houtline⟩ := h []
  rw [List.append_nil, Outline.of_previous (by decide), Outline.of_nil, List.append_nil] at houtline
  have hfailure : (Outline.of none none t).failure = none := by rw [houtline]
  have htext := Outline.text_of_failure_eq_none hfailure
  rw [houtline, Outline.text] at htext
  refine ⟨ofItems (Phrase.items [] ps), ?_, ?_⟩
  · refine (Session.fst_read none (String.ofList t).toList).trans ?_
    rw [String.toList_ofList, houtline]
    rfl
  · have hsource : t = [] ++ ps.flatMap Phrase.text ++ [] := by simpa using htext.symm
    have hwording := wording_ofItems [] hsource
    rwa [hps] at hwording

/-- Words that can be read are read from the text that says them. -/
theorem read_source {w : Wording} (h : w.Readable) :
    ∃ p, read (String.ofList w.source) = .ok p ∧ p.wording w.source = .ok w := by
  obtain ⟨after, hsays⟩ := Outline.says_source h
  exact exists_of_says hsays

/-- A program that is read from a text has words, and they can be read. -/
theorem exists_wording_of_read {source : String} {p : Program} (h : read source = .ok p) :
    ∃ w : Wording, p.wording source.toList = .ok w ∧ w.Readable := by
  have houtline := (Session.fst_read none source.toList).symm.trans h
  obtain ⟨hfailure, rfl⟩ := Outline.answer_eq_ok_iff.1 houtline
  have htext := Outline.text_of_failure_eq_none hfailure
  rw [Outline.text] at htext
  exact ⟨_, wording_ofItems [] (by simp [htext]), readable_of none none source.toList⟩

/-- The listing of a program whose words can be read has its lines, and without the stamps it is the
text that says the words. -/
theorem exists_listing {t : List Char} {p : Program} {w : Wording} (hw : p.wording t = .ok w)
    (h : w.Readable) :
    ∃ listing, render .plain t p = .ok listing ∧
      listing.splitOn '\n' = lines p w.spelled ++ [[]] ∧
      (lines p w.spelled).length = p.data.length + p.text.length +
        ((if p.data = [] then 0 else 1) + if p.text = [] then 0 else 1) ∧
      deleteStamps listing = w.spelled.source := by
  obtain ⟨hlisting, hdata, htext⟩ := render_plain hw
  have hspelled : p.data.length = w.spelled.data.length := by
    rw [hdata, Wording.spelled, List.length_map]
  have hlines : ∀ l ∈ lines p w.spelled, '\n' ∉ l := by
    apply lineFeed_not_mem_lines
    · intro d hd
      obtain ⟨d, hmem, rfl⟩ := List.mem_map.1 hd
      exact (h.data d hmem).lineFeed_not_mem
    · intro i hi
      exact (h.text i hi).lineFeed_not_mem
  refine ⟨_, hlisting, splitOn_ofLines hlines, length_lines hspelled htext, ?_⟩
  rw [deleteStamps_ofLines hlines, map_dropStamp_lines hspelled htext, Wording.source]

/-- Every program that is read from a text is listed line by line: a line for each entry, which starts
with the place and the kind of the entry, under the header of its section. When these are deleted, the
listing is a text that says the words, with the line feeds in values spelled out, and a program with these
words is read from it; and when this program is listed in its turn, and the stamps are deleted, the text
is the same. -/
theorem read_listing {source : String} {p : Program} (h : read source = .ok p) :
    ∃ w listing, p.wording source.toList = .ok w ∧
      render .plain source.toList p = .ok listing ∧
      listing.splitOn '\n' = lines p w.spelled ++ [[]] ∧
      (lines p w.spelled).length = p.data.length + p.text.length +
        ((if p.data = [] then 0 else 1) + if p.text = [] then 0 else 1) ∧
      deleteStamps listing = w.spelled.source ∧
      ∃ q relisting, read (String.ofList (deleteStamps listing)) = .ok q ∧
        q.wording (deleteStamps listing) = .ok w.spelled ∧
        render .plain (deleteStamps listing) q = .ok relisting ∧
        deleteStamps relisting = deleteStamps listing := by
  obtain ⟨w, hw, hreadable⟩ := exists_wording_of_read h
  obtain ⟨listing, hlisting, hsplit, hlength, hdeleted⟩ := exists_listing hw hreadable
  obtain ⟨q, hq, hwords⟩ := read_source hreadable.spelled
  obtain ⟨relisting, hrelisting, -, -, hagain⟩ := exists_listing hwords hreadable.spelled
  rw [Wording.spelled_spelled] at hagain
  refine ⟨w, listing, hw, hlisting, hsplit, hlength, ?_⟩
  rw [hdeleted]
  exact ⟨rfl, q, relisting, hq, hwords, hrelisting, hagain⟩

/-- A quoted line feed, and a labelled instruction. -/
theorem read_listing_quoted :
    let source := "section .data\nm: '\n'\nsection .text\nl: a b"
    let p : Program := ⟨[⟨⟨14, 15⟩, ⟨17, 20⟩, 3, 1⟩],
      [⟨⟨38, 39⟩, [⟨40, 41⟩], some ⟨35, 36⟩, 5, 6⟩]⟩
    let unstamped := "section .data\nm: '\\n'\nsection .text\nl: a b\n".toList
    read source = .ok p ∧
      ∃ listing q relisting, render .plain source.toList p = .ok listing ∧
        deleteStamps listing = unstamped ∧ read (String.ofList unstamped) = .ok q ∧
        render .plain unstamped q = .ok relisting ∧ deleteStamps relisting = unstamped := by
  intro source p unstamped
  have houtline : Outline.of none none source.toList =
      ⟨[.directive [' '] .data, .blank '\n', .datum ['m'] [' '] ['\'', '\n', '\''] ['\n'],
        .directive [' '] .text, .blank '\n',
        .instruction (some (['l'], [' '])) ['a'] [([' '], ['b'])] []], none⟩ := by
    cbv
  have hread : read source = .ok p := by
    refine (Session.fst_read none source.toList).trans ?_
    rw [houtline]
    rfl
  have hwording : p.wording source.toList =
      .ok ⟨[⟨['m'], ['\'', '\n', '\'']⟩], [⟨some ['l'], ['a'], [['b']]⟩]⟩ := by
    cbv
  obtain ⟨w, listing, hw, hlisting, -, -, hdeleted, q, relisting, hq, -, hrelisting, hagain⟩ :=
    read_listing hread
  obtain rfl := Except.ok.inj (hw.symm.trans hwording)
  have hunstamped : deleteStamps listing = unstamped := hdeleted
  rw [hunstamped] at hq hrelisting hagain
  exact ⟨hread, listing, q, relisting, hlisting, hunstamped, hq, hrelisting, hagain⟩

end Mnemonic.Program
