import Leftward.Proofs.Program.Answering
import Leftward.Proofs.Text.Utf8

/-!
# Running files is running texts

A file holds bytes and a program is made of texts, and there are two ways from the one to the other.
**Files that hold the encodings of texts run as these texts do**, with a line feed for each of their
newlines (`files_run_as_texts`): the result is the same, the failure is the same, and so are the
steps and the trace. What a newline is can be said in two passes, first the pairs and then the
single returns (`Newline.feeds`), while the reader makes one pass of it.

**Bytes that encode no text are refused before anything is parsed.** The run then ends at the first
file that cannot be read, after no step, whatever the others hold and however it was to be run.
-/

namespace Leftward

/-! ## Newlines in two passes -/

namespace Newline

/-- The text with a line feed for each carriage return and line feed in a row. -/
def pairsToFeeds : List Char → List Char
  | [] => []
  | '\r' :: '\n' :: rest => '\n' :: pairsToFeeds rest
  | c :: rest => c :: pairsToFeeds rest

/-- The text with a line feed for each such pair, and then for each carriage return that is left. -/
def feeds (text : List Char) : List Char :=
  (pairsToFeeds text).map fun c => if c = '\r' then '\n' else c

theorem feeds_cons {c : Char} {rest : List Char} (h : c = '\r' → ∀ more, rest ≠ '\n' :: more) :
    feeds (c :: rest) = (if c = '\r' then '\n' else c) :: feeds rest := by
  have hcons : pairsToFeeds (c :: rest) = c :: pairsToFeeds rest := by
    rw [pairsToFeeds]
    exact fun more hc => h hc more
  rw [feeds, hcons, List.map_cons, feeds]

/-- **The one pass of the reader does what the two passes do.** -/
theorem unify_eq_feeds (text : List Char) : unify text = feeds text := by
  fun_induction pairsToFeeds text with
  | case1 => rfl
  | case2 rest ih =>
    rw [unify_pair, ih]
    simp [feeds, pairsToFeeds]
  | case3 c rest hpair ih =>
    have hsingle : c = '\r' → ∀ more, rest ≠ '\n' :: more := fun hc more => hpair more hc
    rw [unify_cons hsingle, feeds_cons hsingle, ih]

theorem feeds_eq_self {text : List Char} (h : '\r' ∉ text) : feeds text = text := by
  induction text with
  | nil => rfl
  | cons c rest ih =>
    have hc : c ≠ '\r' := (List.ne_of_not_mem_cons h).symm
    rw [feeds_cons fun hreturn => absurd hreturn hc, if_neg hc,
      ih (List.not_mem_of_not_mem_cons h)]

end Newline

/-! ## Reading what was written -/

namespace Source

variable {store : Store} {path : String} {paths : List String}

theorem read_encoded {text : List Char} (h : store path = .ok (Utf8.encode text)) :
    read store path = .ok (Newline.feeds text) := by
  have hdecode : Utf8.decode (Utf8.encode text) = .ok text := Utf8.decode_eq_ok_iff.mpr rfl
  simp only [read, h, Source.text, hdecode, Newline.unify_eq_feeds]

/-- What gives a text was the encoding of one. -/
theorem exists_encoded {text : List Char} (h : read store path = .ok text) :
    ∃ written, store path = .ok (Utf8.encode written) := by
  unfold read at h
  split at h
  · cases h
  · rename_i bytes hbytes
    cases hdecode : Utf8.decode bytes with
    | ok written => exact ⟨written, by rw [hbytes, Utf8.decode_eq_ok_iff.mp hdecode]⟩
    | error fault =>
      rw [Source.text, hdecode] at h
      cases h

/-- What stands between a path and a text: there are no bytes, or they encode no text. -/
def Bars (store : Store) (path : String) (obstacle : Obstacle) : Prop :=
  store path = .error obstacle ∨
    ∃ bytes fault, store path = .ok bytes ∧ (∀ text, bytes ≠ Utf8.encode text) ∧
      Utf8.decode bytes = .error fault ∧ obstacle = .undecodable fault

theorem bars_of_read {obstacle : Obstacle} (h : read store path = .error obstacle) :
    Bars store path obstacle := by
  unfold read at h
  split at h
  · rename_i found hfound
    cases h
    exact .inl hfound
  · rename_i bytes hbytes
    cases hdecode : Utf8.decode bytes with
    | ok written =>
      rw [Source.text, hdecode] at h
      cases h
    | error fault =>
      rw [Source.text, hdecode] at h
      cases h
      refine .inr ⟨bytes, fault, hbytes, fun text htext => ?_, hdecode, rfl⟩
      rw [Utf8.decode_eq_ok_iff.mpr htext] at hdecode
      cases hdecode

/-- Bytes that encode no text are not read. -/
theorem read_undecodable {bytes : List UInt8} (h : store path = .ok bytes)
    (hnone : ∀ text, bytes ≠ Utf8.encode text) :
    ∃ fault, read store path = .error (.undecodable fault) := by
  obtain ⟨fault, hfault⟩ := Utf8.exists_fault hnone
  exact ⟨fault, by simp only [read, h, Source.text, hfault]⟩

end Source

/-! ## Running files -/

namespace Program

/-- **Files run as what is written in them, and what cannot be read is not run.** If the files hold
the encodings of texts, running them ends as running the texts does, with a line feed for each
newline; without carriage returns these are the texts themselves. If one of them holds bytes that
encode no text, reading already fails, at the first file that gives no text, and so does every run,
before a step. -/
theorem files_run_as_texts (store : Source.Store) (paths : List String) :
    (∀ texts, List.Forall₂ (fun path text => store path = .ok (Utf8.encode text)) paths texts →
      ∀ settings fuel room,
        endingOfFiles store settings paths fuel room =
            ending store settings (texts.map Newline.feeds) fuel room ∧
          ((∀ text ∈ texts, '\r' ∉ text) →
            endingOfFiles store settings paths fuel room =
              ending store settings texts fuel room)) ∧
    ∀ path ∈ paths, ∀ bytes, store path = .ok bytes → (∀ text, bytes ≠ Utf8.encode text) →
      ∃ before first after obstacle, paths = before ++ first :: after ∧
        (∀ p ∈ before, ∃ text, store p = .ok (Utf8.encode text)) ∧
        Source.Bars store first obstacle ∧
        Source.loadAll store paths =
          .error (Cause.unreadable first obstacle : Cause Primitive Unit).failure ∧
        (Cause.unreadable first obstacle : Cause Primitive Unit).category = .sourceUnreadable ∧
        ∀ settings fuel room, endingOfFiles store settings paths fuel room =
          some ⟨.error (Cause.unreadable first obstacle).failure, 0, ""⟩ := by
  constructor
  · intro texts htexts settings fuel room
    have hread : List.Forall₂ (fun path text => Source.read store path = .ok text) paths
        (texts.map Newline.feeds) :=
      List.forall₂_map_right_iff.mpr (htexts.imp fun _ _ => Source.read_encoded)
    have hending := endingOfFiles_of_loadAll (Source.loadAll_eq_ok hread) settings fuel room
    refine ⟨hending, fun hreturns => ?_⟩
    have hsame : texts.map Newline.feeds = texts.map id :=
      List.map_congr_left fun text htext => Newline.feeds_eq_self (hreturns text htext)
    rw [hending, hsame, List.map_id]
  · intro path hpath bytes hbytes hnone
    obtain ⟨fault, hfault⟩ := Source.read_undecodable hbytes hnone
    obtain ⟨before, first, after, obstacle, rfl, hbefore, hfirst⟩ :=
      Source.exists_first ⟨path, hpath, _, hfault⟩
    have hload := Source.loadAll_eq_error (ν := Primitive) (τ := Unit) hbefore hfirst after
    refine ⟨before, first, after, obstacle, rfl, fun p hp => ?_, Source.bars_of_read hfirst, hload,
      rfl, fun settings fuel room => ?_⟩
    · obtain ⟨text, htext⟩ := hbefore p hp
      exact Source.exists_encoded htext
    · rw [endingOfFiles, assembleFiles, hload]
      rfl

/-- A file with a byte order mark and both kinds of newline runs as its text, mark included. Two
bytes that look like a line feed in an overlong form stop the run. -/
theorem files_run_as_texts_marked :
    let marked : List UInt8 := [0xEF, 0xBB, 0xBF, 0x31, 0x0D, 0x0A, 0x32, 0x0D]
    let store : Source.Store := fun path => .ok (if path = "a" then marked else [0xC0, 0x8A])
    (∀ settings fuel room, endingOfFiles store settings ["a"] fuel room =
      ending store settings [['\uFEFF', '1', '\n', '2', '\n']] fuel room) ∧
    ∃ obstacle, ∀ settings fuel room, endingOfFiles store settings ["b", "a"] fuel room =
      some ⟨.error (Cause.unreadable "b" obstacle).failure, 0, ""⟩ := by
  intro marked store
  constructor
  · intro settings fuel room
    have hmarked : store "a" = .ok (Utf8.encode ['\uFEFF', '1', '\r', '\n', '2', '\r']) := rfl
    exact ((files_run_as_texts store ["a"]).1 _ (.cons hmarked .nil) settings fuel room).1
  · have hnone (text : List Char) : [0xC0, 0x8A] ≠ Utf8.encode text := fun htext => by
      cases Utf8.decode_eq_ok_iff.mpr htext
    obtain ⟨before, first, after, obstacle, hpaths, hbefore, -, -, -, hending⟩ :=
      (files_run_as_texts store ["b", "a"]).2 "b" (by simp) [0xC0, 0x8A] rfl hnone
    cases before with
    | nil =>
      cases hpaths
      exact ⟨obstacle, hending⟩
    | cons p before =>
      obtain rfl : "b" = p := (List.cons.inj hpaths).1
      obtain ⟨text, htext⟩ := hbefore "b" List.mem_cons_self
      exact absurd (Except.ok.inj htext) (hnone text)

end Program
end Leftward
