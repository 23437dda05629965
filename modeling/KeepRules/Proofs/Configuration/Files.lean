import KeepRules.Proofs.Configuration.Continuation
import KeepRules.Proofs.Configuration.Replay
import KeepRules.Proofs.Configuration.Texts
import KeepRules.Proofs.Tokens

/-! # Files

A file is cut into lines before it is decoded. A line that cannot be decoded is a fault of its own:
whoever goes on reading after it gets the lines, and the words, that follow.

* `Text.Pieces`, `Text.ReadAs`: the pieces of a byte content, and what each of them is read as.
* `answers`: what is answered when a call is made again and again, also after failures.
* `files_give_lines`: the answers of a file, line by line and word by word; a file that holds an
  encoded text is the same source as the text. -/

set_option autoImplicit false

namespace KeepRules

/-! ## Byte contents -/

namespace Text

/-- The pieces of a byte content that is cut after each line feed. -/
structure Pieces (bytes : List UInt8) (pieces : List (List UInt8)) : Prop where
  flatten : pieces.flatten = bytes
  ne_nil : ∀ piece ∈ pieces, piece ≠ []
  /-- A line feed stands only at the end of a piece. -/
  inner : ∀ piece ∈ pieces, 0x0A ∉ piece.dropLast
  /-- Only the last piece may lack its line feed. -/
  ends : ∀ piece ∈ pieces.dropLast, piece.getLast? = some 0x0A

/-- A text and its line: what stands before `\r\n` or `\n` at the end, or all of it. -/
inductive LineOf : String → String → Prop where
  | carriageReturn (line : String) : LineOf (line ++ "\r\n") line
  | lineFeed {line : String} : line.toList.getLast? ≠ some '\r' → LineOf (line ++ "\n") line
  | unended {text : String} : text.toList.getLast? ≠ some '\n' → LineOf text text

/-- What a piece is read as: the line of the text that it encodes, or else a fault. -/
inductive ReadAs (piece : List UInt8) : Except IoFault String → Prop where
  | line {text line : String} :
      text.toUTF8.data.toList = piece → LineOf text line → ReadAs piece (.ok line)
  | fault : (∀ text : String, text.toUTF8.data.toList ≠ piece) →
      ReadAs piece (.error .invalidUtf8)

theorem chunks_of_pieces {pieces : List (List UInt8)} (hne : ∀ piece ∈ pieces, piece ≠ [])
    (hinner : ∀ piece ∈ pieces, 0x0A ∉ piece.dropLast)
    (hends : ∀ piece ∈ pieces.dropLast, piece.getLast? = some 0x0A) :
    chunks (· == 0x0A) pieces.flatten = pieces := by
  induction pieces with
  | nil => rfl
  | cons piece pieces ih =>
    have hbytes : ∀ b ∈ piece.dropLast, (b == 0x0A) = false := by
      intro b hb
      rw [beq_eq_false_iff_ne]
      rintro rfl
      exact hinner piece List.mem_cons_self hb
    have hrest : chunks (· == 0x0A) pieces.flatten = pieces := by
      refine ih (fun p hp => hne p (.tail _ hp)) (fun p hp => hinner p (.tail _ hp)) ?_
      intro p hp
      cases pieces with
      | nil => cases hp
      | cons q pieces => exact hends p (.tail _ hp)
    rw [List.flatten_cons]
    by_cases hlast : piece.getLast? = some 0x0A
    · rw [← List.dropLast_append_getLast? _ hlast, List.append_assoc, List.singleton_append,
        chunks_append (by rfl) hbytes, hrest]
    · -- only the last piece lacks its line feed
      obtain rfl : pieces = [] := by
        cases pieces with
        | nil => rfl
        | cons q pieces => exact absurd (hends piece List.mem_cons_self) hlast
      rw [List.flatten_nil, List.append_nil]
      refine chunks_of_forall (hne piece List.mem_cons_self) fun b hb => ?_
      obtain ⟨c, hc⟩ := Option.ne_none_iff_exists'.1
        (mt List.getLast?_eq_none_iff.1 (hne piece List.mem_cons_self))
      rw [← List.dropLast_append_getLast? c hc] at hb
      rcases List.mem_append.1 hb with hb | hb
      · exact hbytes b hb
      · rw [List.mem_singleton.1 hb, beq_eq_false_iff_ne]
        rintro rfl
        exact hlast hc

theorem Pieces.cons {line rest : List UInt8} {pieces : List (List UInt8)} (h : Pieces rest pieces)
    (hline : 0x0A ∉ line) : Pieces (line ++ 0x0A :: rest) ((line ++ [0x0A]) :: pieces) where
  flatten := by rw [List.flatten_cons, h.flatten, List.append_assoc, List.singleton_append]
  ne_nil := List.forall_mem_cons.2 ⟨by simp, h.ne_nil⟩
  inner := List.forall_mem_cons.2 ⟨by rwa [List.dropLast_concat], h.inner⟩
  ends := by
    cases pieces with
    | nil => exact fun _ hp => absurd hp List.not_mem_nil
    | cons piece pieces => exact List.forall_mem_cons.2 ⟨List.getLast?_concat, h.ends⟩

theorem pieces_singleton {line : List UInt8} (hne : line ≠ []) (hline : 0x0A ∉ line) :
    Pieces line [line] where
  flatten := List.flatten_singleton
  ne_nil := List.forall_mem_singleton.2 hne
  inner := List.forall_mem_singleton.2 fun h => hline (List.dropLast_subset line h)
  ends := fun _ hp => absurd hp List.not_mem_nil

theorem pieces_chunks (bytes : List UInt8) : Pieces bytes (chunks (· == 0x0A) bytes) := by
  -- a line with its line feed comes off the front
  induction hn : bytes.length using Nat.strongRecOn generalizing bytes with
  | ind n ih =>
    by_cases hmem : 0x0A ∈ bytes
    · obtain ⟨line, rest, rfl, hline⟩ := List.eq_append_cons_of_mem hmem
      have hbytes : ∀ b ∈ line, (b == 0x0A) = false := fun b hb =>
        beq_eq_false_iff_ne.2 fun he => hline (he ▸ hb)
      rw [chunks_append (by rfl) hbytes]
      refine (ih rest.length ?_ rest rfl).cons hline
      rw [← hn, List.length_append, List.length_cons]
      omega
    · by_cases hne : bytes = []
      · subst hne
        exact ⟨rfl, fun _ h => absurd h List.not_mem_nil, fun _ h => absurd h List.not_mem_nil,
          fun _ h => absurd h List.not_mem_nil⟩
      · have hbytes : ∀ b ∈ bytes, (b == 0x0A) = false := fun b hb =>
          beq_eq_false_iff_ne.2 fun he => hmem (he ▸ hb)
        rw [chunks_of_forall hne hbytes]
        exact pieces_singleton hne hmem

/-- A byte content is cut in one way. -/
theorem pieces_iff {bytes : List UInt8} {pieces : List (List UInt8)} :
    Pieces bytes pieces ↔ pieces = chunks (· == 0x0A) bytes := by
  constructor
  · intro h
    rw [← h.flatten]
    exact (chunks_of_pieces h.ne_nil h.inner h.ends).symm
  · rintro rfl
    exact pieces_chunks bytes

theorem lineOf_withoutLineEnding (text : String) :
    LineOf text (String.ofList (withoutLineEnding text.toList)) := by
  by_cases hlast : text.toList.getLast? = some '\n'
  · have htext := (List.dropLast_append_getLast? _ hlast).symm
    generalize text.toList.dropLast = line at htext
    obtain rfl : text = String.ofList line ++ "\n" := by
      apply String.toList_inj.1
      rw [htext, String.toList_append, String.toList_ofList]
      rfl
    rw [htext, withoutLineEnding_append]
    by_cases hr : line.getLast? = some '\r'
    · have hline := (List.dropLast_append_getLast? _ hr).symm
      generalize line.dropLast = start at hline
      subst hline
      have he : String.ofList (start ++ ['\r']) ++ "\n" = String.ofList start ++ "\r\n" := by
        apply String.toList_inj.1
        simp
      rw [chomp_append, he]
      exact .carriageReturn _
    · rw [chomp_eq_self.2 hr]
      exact .lineFeed (by rwa [String.toList_ofList])
  · have hkeep : withoutLineEnding text.toList = text.toList := by
      rcases List.eq_nil_or_concat text.toList with he | ⟨l, c, he⟩
      · rw [he]
        rfl
      · rw [he, List.concat_eq_append] at hlast ⊢
        unfold withoutLineEnding
        simp_all
    rw [hkeep, String.ofList_toList]
    exact .unended hlast

theorem fromUTF8?_eq_some_iff {piece : List UInt8} {text : String} :
    String.fromUTF8? ⟨piece.toArray⟩ = some text ↔ text.toUTF8.data.toList = piece := by
  constructor
  · intro h
    unfold String.fromUTF8? at h
    split at h
    · rw [← Option.some.inj h]
      exact List.toList_toArray
    · cases h
  · rintro rfl
    rw [toList_toUTF8, fromUTF8?_flatMap, String.ofList_toList]

/-- A line of a byte content, or the fault that stands in its place. -/
def lineOrFault : Option String → Except IoFault String
  | some line => .ok line
  | none => .error .invalidUtf8

theorem readAs_byteLines (bytes : ByteArray) :
    List.Forall₂ ReadAs (chunks (· == 0x0A) bytes.data.toList)
      ((byteLines bytes).map lineOrFault) := by
  rw [byteLines, List.map_map, List.forall₂_map_right_iff, List.forall₂_same]
  intro piece _
  rw [Function.comp_apply]
  cases hd : String.fromUTF8? ⟨piece.toArray⟩ with
  | some text => exact .line (fromUTF8?_eq_some_iff.1 hd) (lineOf_withoutLineEnding text)
  | none =>
    refine .fault fun text he => ?_
    rw [fromUTF8?_eq_some_iff.2 he] at hd
    cases hd

end Text

/-! ## Calls made again and again -/

section
variable {ε σ α : Type}

/-- What a call answers, and the state that it leaves behind, also when it fails. -/
def reply : EStateM.Result ε σ α → Except ε α × σ
  | .ok a s => (.ok a, s)
  | .error e s => (.error e, s)

/-- The answers to so many calls, one after the other, and what they lead to. -/
def answers (call : EStateM ε σ α) : Nat → σ → List (Except ε α) × σ
  | 0, s => ([], s)
  | n + 1, s =>
    let (x, s') := reply (call s)
    let (xs, s'') := answers call n s'
    (x :: xs, s'')

/-- What is to come is answered in order, and then there is the same last answer each time. -/
theorem answers_of_coming {call : EStateM ε σ α} {last : α} (Coming : σ → List (Except ε α) → Prop)
    (next : ∀ {s x xs}, Coming s (x :: xs) → ∃ s', reply (call s) = (x, s') ∧ Coming s' xs)
    (done : ∀ {s}, Coming s [] → ∃ s', call s = .ok last s' ∧ Coming s' [])
    {s : σ} {xs : List (Except ε α)} (h : Coming s xs) (n : Nat) :
    (answers call n s).1 = (xs ++ List.replicate n (Except.ok last)).take n := by
  induction n generalizing s xs with
  | zero => rfl
  | succ n ih =>
    cases xs with
    | nil =>
      obtain ⟨s', hcall, hs'⟩ := done h
      simp only [answers, hcall, reply, ih hs', List.nil_append, List.replicate_succ,
        List.take_succ_cons]
    | cons x xs =>
      obtain ⟨s', hcall, hs'⟩ := next h
      have htake : (xs ++ List.replicate n (Except.ok last) ++ [Except.ok last]).take n =
          (xs ++ List.replicate n (Except.ok last)).take n :=
        List.take_append_of_le_length (by simp)
      simp only [answers, hcall, ih hs', List.cons_append, List.take_succ_cons]
      rw [List.replicate_succ', ← List.append_assoc, htake]

end

/-! ## Lines -/

namespace Source

/-- What is answered when a line is asked for. -/
def answer (line : Option String) : Except IoFault (Option String) :=
  (Text.lineOrFault line).map some

theorem answers_nextLine {s : Source} (hf : s.fault = none) (n : Nat) :
    (answers nextLine n s).1 =
      (s.unread.map answer ++ List.replicate n (Except.ok none)).take n := by
  refine answers_of_coming (fun (s : Source) xs => s.fault = none ∧ xs = s.unread.map answer)
    ?_ ?_ ⟨hf, rfl⟩ n
  · rintro s x xs ⟨hf, hxs⟩
    obtain ⟨line, rest, hu, rfl, rfl⟩ := List.map_eq_cons_iff.1 hxs.symm
    unfold nextLine
    rw [hu]
    cases line with
    | some line => exact ⟨_, rfl, hf, rfl⟩
    | none => exact ⟨_, rfl, hf, rfl⟩
  · rintro s ⟨hf, hxs⟩
    have hu := List.map_eq_nil_iff.1 hxs.symm
    exact ⟨s, by simp [nextLine, hu, hf], hf, hxs⟩

/-- Whether a line was given. -/
def isLine : Except IoFault (Option String) → Bool
  | .ok (some _) => true
  | _ => false

/-- A call counts the line that it gives, and nothing else. -/
theorem count_nextLine (s : Source) :
    (reply s.nextLine).2.origin = s.origin ∧
      (reply s.nextLine).2.count = s.count + [(reply s.nextLine).1].countP isLine := by
  unfold nextLine
  split
  · split <;> exact ⟨rfl, rfl⟩
  · exact ⟨rfl, rfl⟩
  · exact ⟨rfl, rfl⟩

theorem count_answers (s : Source) (n : Nat) :
    (answers nextLine n s).2.origin = s.origin ∧
      (answers nextLine n s).2.count = s.count + (answers nextLine n s).1.countP isLine := by
  induction n generalizing s with
  | zero => exact ⟨rfl, rfl⟩
  | succ n ih =>
    obtain ⟨ho, hc⟩ := count_nextLine s
    obtain ⟨ho', hc'⟩ := ih (reply s.nextLine).2
    refine ⟨ho'.trans ho, hc'.trans ?_⟩
    rw [hc, Nat.add_assoc, ← List.countP_append]
    rfl

end Source

/-! ## Words -/

namespace Reader

/-- What is answered when a word, or a fault in its place, comes next. -/
def answer (origin : Origin) : Except IoFault String → Except ParseError (Option String)
  | .ok word => .ok (some word)
  | .error fault => .error (.unreadable origin fault)

/-- A single source without a fault at its end, and what its words are answered as. -/
structure Coming (o : Origin) (r : Reader) (xs : List (Except ParseError (Option String))) :
    Prop where
  below : r.below = []
  origin : r.top.source.origin = o
  fault : r.top.source.fault = none
  ahead : xs = (r.top.ahead r.separator).map (answer o)

theorem answers_next {o : Origin} {r : Reader} {xs : List (Except ParseError (Option String))}
    (h : r.Coming o xs) (n : Nat) :
    (answers next n r).1 = (xs ++ List.replicate n (Except.ok none)).take n := by
  refine answers_of_coming (Coming o) ?_ ?_ h n
  · rintro r x xs ⟨hb, ho, hf, ha⟩
    cases hn : r.top.next r.separator with
    | error fault f =>
      obtain ⟨ho', hf'⟩ := Frame.origin_of_next_error hn
      rw [Frame.ahead_of_next_error hn hf, List.map_cons] at ha
      obtain ⟨rfl, rfl⟩ := List.cons.inj ha
      refine ⟨{ r with top := f }, ?_, hb, ho'.trans ho, hf'.trans hf, rfl⟩
      rw [next_of_error hn, reply, ho', ho]
      rfl
    | ok word f =>
      have ho' := Frame.origin_of_next hn
      cases word with
      | none =>
        rw [(Frame.ahead_of_next_none hn).1] at ha
        cases ha
      | some w =>
        rw [Frame.ahead_of_next_some hn, List.map_cons] at ha
        obtain ⟨rfl, rfl⟩ := List.cons.inj ha
        refine ⟨{ r with top := f }, ?_, hb, ho'.trans ho,
          (Frame.fault_of_next_some hn).trans hf, rfl⟩
        rw [next_of_some hn]
        rfl
  · rintro r ⟨hb, ho, hf, ha⟩
    cases hn : r.top.next r.separator with
    | error fault f =>
      rw [Frame.ahead_of_next_error hn hf] at ha
      cases ha
    | ok word f =>
      cases word with
      | some w =>
        rw [Frame.ahead_of_next_some hn] at ha
        cases ha
      | none =>
        refine ⟨{ r with top := f }, next_of_none hb hn, hb, (Frame.origin_of_next hn).trans ho,
          (Frame.fault_of_next_none hn).trans hf, ?_⟩
        show [] = (f.ahead r.separator).map _
        rw [(Frame.ahead_of_next_none hn).2]
        rfl

/-- What a line, or the fault in its place, is given as: the tokens in front of its comment one
after the other, or the fault once. -/
inductive GivenAs (separator : Char) (origin : Origin) :
    Except IoFault String → List (Except ParseError (Option String)) → Prop where
  | line {line : String} {words : List String} : Word.Tokens separator (Word.code line) words →
      GivenAs separator origin (.ok line) (words.map fun w => .ok (some w))
  | fault (fault : IoFault) :
      GivenAs separator origin (.error fault) [.error (.unreadable origin fault)]

/-- What is answered for a line. -/
def given (separator : Char) (origin : Origin) (line : Option String) :
    List (Except ParseError (Option String)) :=
  match line with
  | none => [.error (.unreadable origin .invalidUtf8)]
  | some line => (Word.ofLine separator line).1.map fun w => .ok (some w)

theorem givenAs_given (separator : Char) (origin : Origin) (line : Option String) :
    GivenAs separator origin (Text.lineOrFault line) (given separator origin line) := by
  cases line with
  | none => exact .fault _
  | some line => exact .line (Word.tokens_iff.2 (Word.ofLine_fst line))

theorem coming_ofSource {source : Source} (hf : source.fault = none) (settings : Settings) :
    (ofSource source settings).Coming source.origin
      (source.unread.flatMap (given settings.pathSeparator source.origin)) := by
  refine ⟨rfl, rfl, hf, ?_⟩
  show _ = (([] : List String).map Except.ok ++ source.unread.flatMap _).map (answer source.origin)
  rw [List.map_nil, List.nil_append, List.map_flatMap]
  refine congrArg (List.flatMap · source.unread) (funext fun line => ?_)
  cases line with
  | none => rfl
  | some line =>
    show _ = ((Word.ofLine settings.pathSeparator line).1.map Except.ok).map _
    rw [List.map_map]
    rfl

end Reader

namespace Configuration

/-- **Files give their lines.** The bytes are cut after each line feed. Each piece is answered once
and in order, as its line if it can be decoded and as a fault if not, and then there is the end; the
location counts the lines given. A reader gives the words of these lines in the same way, and the
encoding of a text is the same source as the text. -/
theorem files_give_lines {host : Host} {name : String} {bytes : ByteArray}
    (h : host.openFile name = .ok (.file bytes)) :
    ∃ source pieces lines,
      Source.ofFile host name = .ok source ∧
      (∀ cut, Text.Pieces bytes.data.toList cut ↔ cut = pieces) ∧
      List.Forall₂ Text.ReadAs pieces lines ∧
      (∀ n, (answers Source.nextLine n source).1 =
        (lines.map (Except.map some) ++ List.replicate n (Except.ok none)).take n) ∧
      (∀ n, (answers Source.nextLine n source).2.lineLocation =
        (Origin.file name).describeLine
          ((answers Source.nextLine n source).1.countP Source.isLine)) ∧
      (∀ settings, ∃ given,
        List.Forall₂ (Reader.GivenAs settings.pathSeparator (.file name)) lines given ∧
        ∀ n, (answers Reader.next n (.ofSource source settings)).1 =
          (given.flatten ++ List.replicate n (Except.ok none)).take n) ∧
      ∀ text : String, bytes = text.toUTF8 →
        source = .ofText name text ∧
        ∀ ctx settings,
          (Source.ofFile host name >>= ofSource ctx settings) =
            ofSource ctx settings (.ofText name text) ∧
          ∀ config, readInto ctx settings config source =
            readInto ctx settings config (.ofText name text) := by
  have hopen : Source.ofFile host name = .ok (.ofContent name (.file bytes)) := by
    rw [Source.ofFile, h]
  refine ⟨.ofContent name (.file bytes), _, _, hopen, fun _ => Text.pieces_iff,
    Text.readAs_byteLines bytes, fun n => ?_, fun n => ?_, fun settings => ?_, ?_⟩
  · rw [Source.answers_nextLine rfl, List.map_map]
    rfl
  · obtain ⟨ho, hc⟩ := Source.count_answers (.ofContent name (.file bytes)) n
    rw [Source.lineLocation, ho, hc]
    show Origin.describeLine (0 + _) _ = _
    rw [Nat.zero_add]
    rfl
  · refine ⟨(Text.byteLines bytes).map (Reader.given settings.pathSeparator (.file name)), ?_, ?_⟩
    · rw [List.forall₂_map_left_iff, List.forall₂_map_right_iff, List.forall₂_same]
      exact fun line _ => Reader.givenAs_given settings.pathSeparator (.file name) line
    · rw [← List.flatMap_def]
      exact Reader.answers_next
        (@Reader.coming_ofSource (.ofContent name (.file bytes)) rfl settings)
  · rintro text rfl
    have he : Source.ofContent name (.file text.toUTF8) = .ofText name text :=
      Except.ok.inj (hopen.symm.trans (Source.ofFile_toUTF8 h))
    refine ⟨he, fun ctx settings => ⟨?_, fun config => by rw [he]⟩⟩
    rw [hopen, he]
    rfl

/-- A machine with a single file, whose second line cannot be decoded. -/
def spoiltHost : Host :=
  { bareContext.host with
    openFile := fun name =>
      if name = "n" then .ok (.file ⟨#[0x61, 0x0D, 0x0A, 0xFF, 0x0A, 0x62]⟩) else .error .notFound }

/-- The line after the one that cannot be decoded is given, and then the end. -/
theorem files_give_lines_spoilt : ∃ source lines,
    Source.ofFile spoiltHost "n" = .ok source ∧
    List.Forall₂ Text.ReadAs [[0x61, 0x0D, 0x0A], [0xFF, 0x0A], [0x62]] lines ∧
    (answers Source.nextLine 4 source).1 =
      lines.map (Except.map some) ++ [(Except.ok none : Except IoFault (Option String))] := by
  obtain ⟨source, pieces, lines, hopen, hcut, hread, hlines, -⟩ :=
    @files_give_lines spoiltHost "n" ⟨#[0x61, 0x0D, 0x0A, 0xFF, 0x0A, 0x62]⟩ rfl
  have hpieces : [[0x61, 0x0D, 0x0A], [0xFF, 0x0A], [0x62]] = pieces :=
    (hcut _).1 ⟨rfl, by decide, by decide, by decide⟩
  subst hpieces
  refine ⟨source, lines, hopen, hread, (hlines 4).trans ?_⟩
  obtain ⟨a, b, c, rfl⟩ := List.length_eq_three.1 hread.length_eq.symm
  rfl

end Configuration

end KeepRules
