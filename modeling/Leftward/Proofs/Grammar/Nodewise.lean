import Leftward.Proofs.Grammar.Tokens

/-!
# Node by node — what holds of everything that is read

The reader makes nodes of tokens, and nodes with brackets of nodes that it has made. So **a
condition that tokens meet and brackets pass on is met by every node that is ever read**
(`Nodewise.term`, `Nodewise.terms`), whatever the condition says. It may count brackets: what stands
inside them has room for one less.
-/

namespace Leftward
namespace Grammar

variable {cs rest : List Char} {node : Node}

/-! ## What tokens are -/

theorem comment_eq_matched (h : comment cs = .matched node rest) :
    ∃ line, node = .leaf .comment ('-' :: '-' :: line) := by
  unfold comment at h
  split at h
  · cases h
    exact ⟨_, rfl⟩
  · cases h

theorem boolean_eq_matched (h : boolean cs = .matched node rest) :
    ∃ value, node = .truth value := by
  unfold boolean at h
  split at h
  · cases h
    exact ⟨true, rfl⟩
  · cases h
    exact ⟨false, rfl⟩
  · cases h

theorem character_eq_matched (h : character cs = .matched node rest) :
    ∃ c, node = .leaf .character ['.', c] := by
  unfold character at h
  split at h
  · cases h
    exact ⟨_, rfl⟩
  · cases h

theorem number_eq_matched (h : number cs = .matched node rest) :
    ∃ digits, digits ≠ [] ∧ (∀ c ∈ digits, c.isDigit = true) ∧ node = .leaf .number digits := by
  unfold number at h
  split at h
  · cases h
  · rename_i digits hne
    cases h
    exact ⟨_, hne, List.all_eq_true.mp List.all_takeWhile, rfl⟩

theorem string_eq_matched (h : string cs = .matched node rest) :
    ∃ text, node = .leaf .string text := by
  unfold string at h
  split at h
  · split at h
    · split at h
      · cases h
        exact ⟨_, rfl⟩
      · cases h
    · cases h
  · cases h

theorem word_eq_matched (h : word cs = .matched node rest) :
    ∃ c behind, cs = c :: behind ∧ isWordStart c = true ∧
      node = .leaf .word (c :: behind.takeWhile isWordChar) := by
  unfold word at h
  split at h
  · rename_i c behind
    split at h
    · rename_i hc
      cases h
      exact ⟨c, behind, rfl, hc, rfl⟩
    · cases h
  · cases h

/-! ## Conditions on nodes -/

/-- A condition on nodes that tokens meet, in any room for brackets, and brackets pass on. -/
structure Nodewise (q : Nat → Node → Prop) : Prop where
  comment : ∀ {room cs node rest}, comment cs = .matched node rest → q room node
  boolean : ∀ {room cs node rest}, boolean cs = .matched node rest → q room node
  character : ∀ {room cs node rest}, character cs = .matched node rest → q room node
  number : ∀ {room cs node rest}, number cs = .matched node rest → q room node
  string : ∀ {room cs node rest}, string cs = .matched node rest → q room node
  -- A word is read where neither a comment nor a boolean is.
  word : ∀ {room cs node rest}, Grammar.comment cs = .unmatched → Grammar.boolean cs = .unmatched →
    word cs = .matched node rest → q room node
  quotation : ∀ {room items}, (∀ node ∈ items, q room node) →
    q (room + 1) (.branch .quotation items)
  pair : ∀ {room first second}, q room first → q room second →
    q (room + 1) (.branch .pair [first, second])

/-- What holds of each node that is read holds of all that are read one after the other. -/
theorem forall_mem_of_many {q : Node → Prop} {p : List Char → Read Node}
    (h : ∀ cs node rest, p cs = .matched node rest → q node) {count : Nat} {nodes : List Node}
    (hm : many p count cs = some (nodes, rest)) : ∀ node ∈ nodes, q node := by
  induction count generalizing cs nodes with
  | zero =>
    cases hm
    simp
  | succ count ih =>
    rw [many] at hm
    split at hm
    · rename_i node behind hnode
      obtain ⟨⟨others, _⟩, hothers, heq⟩ := Option.map_eq_some_iff.mp hm
      cases heq
      exact List.forall_mem_cons.mpr ⟨h _ _ _ hnode, ih hothers⟩
    · cases hm
      simp
    · cases hm

theorem andThen_eq_matched {α β : Type} {r : Read α} {next : α → List Char → Read β} {value : β}
    (h : r.andThen next = .matched value rest) :
    ∃ first behind, r = .matched first behind ∧ next first behind = .matched value rest := by
  cases r with
  | matched first behind => exact ⟨first, behind, rfl, h⟩
  | unmatched => cases h
  | tooDeep => cases h

theorem spaced_eq_matched {r : Read Node} (h : spaced r = .matched node rest) :
    ∃ behind, r = .matched node behind := by
  obtain ⟨value, behind, hr, hspaced⟩ := andThen_eq_matched h
  cases hspaced
  exact ⟨behind, hr⟩

namespace Nodewise

variable {q : Nat → Node → Prop} {fuel room : Nat}

/-- The reader for what is inside brackets, if there is one, reads nodes that meet the condition
with room for one bracket less. -/
def Inner (q : Nat → Node → Prop) (room : Nat) (inner : Option (List Char → Read Node)) : Prop :=
  ∀ p, inner = some p → ∃ less, room = less + 1 ∧
    ∀ cs node rest, p cs = .matched node rest → q less node

variable {inner : Option (List Char → Read Node)}

theorem of_quotation (hq : Nodewise q) (hinner : Inner q room inner)
    (h : Grammar.quotation fuel inner cs = .matched node rest) : q room node := by
  unfold Grammar.quotation at h
  split at h
  · split at h
    · cases h
    · rename_i p
      obtain ⟨less, rfl, hp⟩ := hinner p rfl
      split at h
      · rename_i items behind hitems
        cases h
        exact hq.quotation (forall_mem_of_many hp hitems)
      · cases h
      · cases h
  · cases h

theorem of_pair (hq : Nodewise q) (hinner : Inner q room inner)
    (h : Grammar.pair inner cs = .matched node rest) : q room node := by
  unfold Grammar.pair at h
  split at h
  · split at h
    · cases h
    · rename_i p
      obtain ⟨less, rfl, hp⟩ := hinner p rfl
      obtain ⟨first, behind, hfirst, h⟩ := andThen_eq_matched h
      obtain ⟨second, closing, hsecond, h⟩ := andThen_eq_matched h
      split at h
      · cases h
        exact hq.pair (hp _ _ _ hfirst) (hp _ _ _ hsecond)
      · cases h
  · cases h

theorem of_alternatives (hq : Nodewise q) (hinner : Inner q room inner)
    (h : alternatives fuel inner cs = .matched node rest) : q room node := by
  simp only [alternatives, Read.orElse_eq_matched] at h
  rcases h with h | ⟨hcom, h | ⟨hbool, h | ⟨-, h | ⟨-, h | ⟨-, h | ⟨-, h | ⟨-, h⟩⟩⟩⟩⟩⟩⟩
  · exact hq.comment h
  · exact hq.boolean h
  · exact hq.character h
  · exact hq.number h
  · exact hq.of_quotation hinner h
  · exact hq.of_pair hinner h
  · exact hq.string h
  · exact hq.word hcom hbool h

/-- **Every node that is read as a term meets the condition.** -/
theorem term (hq : Nodewise q) (h : Grammar.term fuel room cs = .matched node rest) :
    q room node := by
  induction room generalizing cs node rest with
  | zero => exact hq.of_alternatives (fun _ hp => by cases hp) h
  | succ room ih =>
    refine hq.of_alternatives ?_ h
    intro p heq
    cases heq
    refine ⟨room, rfl, fun cs node rest hnode => ?_⟩
    obtain ⟨behind, hterm⟩ := spaced_eq_matched hnode
    exact ih hterm

/-- So do all terms of a program. -/
theorem terms (hq : Nodewise q) {text : List Char} {nodes : List Node}
    (h : Grammar.terms fuel text room = some (nodes, rest)) : ∀ node ∈ nodes, q room node := by
  refine forall_mem_of_many (fun cs node rest hnode => ?_) h
  obtain ⟨behind, hterm⟩ := spaced_eq_matched hnode
  exact hq.term hterm

end Nodewise
end Grammar
end Leftward
