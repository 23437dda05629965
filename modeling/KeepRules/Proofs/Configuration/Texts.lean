import KeepRules.Proofs.Bytes
import KeepRules.Proofs.Configuration.Foundation
import KeepRules.Proofs.Stack

/-! # The words ahead of a cursor

* `Frame.Lists`: the words ahead in a stack of sources, taken as one list.
* `Cursor.Poised`: a cursor at the first of the words, as at the start of a source
  (`Cursor.poised_of_source`).
* `Word.list`: the words of a text. A cursor at the start of a text has them ahead
  (`Cursor.poised_of_text`), and the text may as well be the content of a file
  (`Source.ofFile_toUTF8`). -/

set_option autoImplicit false

namespace KeepRules

open KeepRules.Parser

/-- The words ahead in a stack of sources, none of which has a fault. -/
structure Frame.Lists (separator : Char) (stack : List Frame) (ws : List String) : Prop where
  ne_nil : stack ≠ []
  ahead : stack.flatMap (Frame.ahead separator) = ws.map .ok
  faultless : ∀ f ∈ stack, f.source.fault = none

/-- Taking the comments of the innermost source leaves its words. -/
theorem Frame.Lists.takes {separator : Char} {f : Frame} {b : List Frame} {ws : List String}
    (h : Frame.Lists separator (f :: b) ws) :
    Frame.Lists separator ({ f with comments := none } :: b) ws := by
  refine ⟨List.cons_ne_nil _ _, h.ahead, fun g hg => ?_⟩
  rcases List.mem_cons.1 hg with rfl | hg
  · exact h.faultless f List.mem_cons_self
  · exact h.faultless g (List.mem_cons_of_mem _ hg)

namespace Cursor

section
variable {settings : Settings}

theorem ahead_iff_lists {c : Cursor} {ws : List String} (hc : c.reader.Follows settings) :
    c.Ahead ws ↔ Frame.Lists settings.pathSeparator c.reader.stack ws := by
  rw [← hc.1]
  exact ⟨fun h => ⟨List.cons_ne_nil _ _, h.ahead, h.faultless⟩, fun h => ⟨h.ahead, h.faultless⟩⟩

/-- The words are the lookahead and all that comes after it, and the reader follows the settings. -/
def Poised (settings : Settings) (c : Cursor) (ws : List String) : Prop :=
  c.At ws ∧ c.reader.Follows settings

theorem Poised.advance {c : Cursor} {w : String} {ws : List String}
    (h : c.Poised settings (w :: ws)) :
    ∃ c', Parser.advance c = .ok () c' ∧ c'.Poised settings ws := by
  obtain ⟨c', ha, hat⟩ := At.advance h.1.rest
  exact ⟨c', ha, hat, h.2.next (advance_eq_ok.1 ha)⟩

theorem Poised.passes {c : Cursor} {w : String} {ws rest : List String}
    (h : c.Poised settings (w :: (ws ++ rest))) :
    ∃ c', c.Passes ws c' ∧ c'.Poised settings rest := by
  induction ws generalizing c w with
  | nil =>
    obtain ⟨c', ha, hc'⟩ := h.advance
    exact ⟨c', Passes.nil_iff.2 ha, hc'⟩
  | cons v ws ih =>
    obtain ⟨c₁, ha, hc₁⟩ := h.advance
    obtain ⟨c', hp, hc'⟩ := ih hc₁
    exact ⟨c', Passes.cons_iff.2 ⟨c₁, Reads.singleton_iff.2 ⟨ha, hc₁.1.word⟩, hp⟩, hc'⟩

theorem Poised.dispatched {c : Cursor} {ws : List String} (h : c.Poised settings ws)
    (keyword word : String) : (Configuration.dispatched c keyword word).Poised settings ws := by
  obtain ⟨⟨hw, hr⟩, hs⟩ := h
  refine ⟨⟨hw, hr.ahead, fun f hf => ?_⟩, hs⟩
  rcases List.mem_cons.1 hf with rfl | hf
  · exact hr.faultless c.reader.top List.mem_cons_self
  · exact hr.faultless f (List.mem_cons_of_mem _ hf)

end

end Cursor

open Cursor (Poised)

namespace Reader

theorem next_of_lists {settings : Settings} {r : Reader} {ws : List String}
    (hr : r.Follows settings) (h : Frame.Lists settings.pathSeparator r.stack ws) :
    ∃ r₁, r.next = .ok ws.head? r₁ ∧ Poised settings ⟨r₁, ws.head?⟩ ws := by
  rw [← hr.1] at h
  obtain ⟨r₁, hn, ha, hf⟩ := next_of_ahead h.ahead h.faultless
  exact ⟨r₁, hn, ⟨rfl, ha, hf⟩, hr.next hn⟩

end Reader

/-! ## Texts -/

namespace Source

/-- A file that holds an encoded text. -/
theorem ofFile_toUTF8 {host : Host} {name text : String}
    (h : host.openFile name = .ok (.file text.toUTF8)) :
    ofFile host name = .ok (ofText name text) := by
  rw [ofFile, h]
  show Except.ok ({ origin := .file name, unread := Text.byteLines text.toUTF8 } : Source) = _
  rw [Text.byteLines_toUTF8]
  rfl

end Source

namespace Word

/-- The words of a text, without their comments. -/
def list (separator : Char) (text : String) : List String := (ofText separator text).map Prod.snd

theorem list_append (separator : Char) (text rest : String) :
    list separator (text ++ "\n" ++ rest) = list separator text ++ list separator rest := by
  rw [list, map_snd_ofText_append, map_snd_ofText_newline]
  rfl

theorem Spells.list {separator : Char} {line : String} {ws : List String}
    (h : Spells separator line ws) : list separator line = ws := by
  rw [Word.list, map_snd_ofText]
  by_cases hne : line = ""
  · subst hne
    exact h.words
  · rw [Text.lines_of_notMem h.oneLine hne, List.flatMap_cons, List.flatMap_nil, List.append_nil,
      h.ofLine]

end Word

theorem Frame.ahead_of_text (separator : Char) (name text : String) :
    ({ source := .ofText name text } : Frame).ahead separator =
      (Word.list separator text).map .ok := by
  simp [Frame.ahead, Source.ofText, Word.list, Word.map_snd_ofText, List.flatMap_map,
    List.map_flatMap]

namespace Cursor

theorem poised_of_source {settings : Settings} {source : Source} {ws : List String}
    (h : Frame.Lists settings.pathSeparator [{ source := source }] ws) :
    ∃ c, ofReader (.ofSource source settings) = .ok c ∧ c.Poised settings ws ∧
      c.reader.depth = 0 := by
  have hr : (Reader.ofSource source settings).Follows settings := ⟨rfl, rfl⟩
  obtain ⟨r₁, hn, hp⟩ := Reader.next_of_lists hr h
  refine ⟨_, ?_, hp, Nat.le_zero.1 (Reader.depth_of_next hn)⟩
  rw [ofReader, hn]

theorem poised_of_text (settings : Settings) (name text : String) :
    ∃ c, ofReader (.ofSource (.ofText name text) settings) = .ok c ∧
      c.Poised settings (Word.list settings.pathSeparator text) ∧ c.reader.depth = 0 := by
  refine poised_of_source ⟨List.cons_ne_nil _ _, ?_, fun f hf => ?_⟩
  · rw [List.flatMap_cons, List.flatMap_nil, List.append_nil, Frame.ahead_of_text]
  · rw [List.mem_singleton.1 hf]
    rfl

end Cursor

namespace Configuration

/-- A machine on which there is a single file. -/
def fileContext (name text : String) : Context :=
  { bareContext with
    host := { bareContext.host with
      openFile := fun n => if n = name then .ok (.file text.toUTF8) else .error .notFound } }

end Configuration

end KeepRules
