import Leftward.Proofs.Expr.Spelling

/-!
# Layouts — the texts that differ from the rendering in their gaps only

Between two items of a quotation, between the members of a pair and between two expressions of a
program stands a gap. The rendering makes every gap one space; a person may make it something else.
`Laid gap` holds of an expression and each text that is its rendering but for the gaps, which are
as `gap` has them. **With one space for a gap it is the rendering** (`LaidAll.render`).

What has no text of its own is not laid out: a comment, and the word without letters.
-/

namespace Leftward
namespace Expr

variable {ν τ : Type} {gap : List Char → Prop}

/-- The gap of the rendering. -/
def Space (gap : List Char) : Prop := gap = [' ']

theorem space : Space [' '] := rfl

mutual

/-- The text is the expression's, with such gaps. -/
inductive Laid (gap : List Char → Prop) : Expr ν τ → List Char → Prop where
  | leaf {e : Expr ν τ} {s : String} : e.leaf = some s → s ≠ "" → Laid gap e s.toList
  | string (text : List Char) :
      Laid gap (.quot (text.map .chr)) (delimiter text :: (text ++ [delimiter text]))
  | quotation {items : List (Expr ν τ)} {cs : List Char} :
      text? items = none → LaidAll gap items cs → Laid gap (.quot items) ('[' :: (cs ++ [']']))
  | pair {a b : Expr ν τ} {s g t : List Char} :
      Laid gap a s → gap g → Laid gap b t → Laid gap (.pair a b) ('(' :: (s ++ (g ++ (t ++ [')']))))

/-- The text is that of the expressions side by side, with such gaps. -/
inductive LaidAll (gap : List Char → Prop) : List (Expr ν τ) → List Char → Prop where
  | nil : LaidAll gap [] []
  | one {e : Expr ν τ} {s : List Char} : Laid gap e s → LaidAll gap [e] s
  | cons {e e' : Expr ν τ} {es : List (Expr ν τ)} {s g t : List Char} :
      Laid gap e s → gap g → LaidAll gap (e' :: es) t → LaidAll gap (e :: e' :: es) (s ++ (g ++ t))

end

mutual

/-- A layout with narrower gaps is one with wider gaps. -/
theorem Laid.imp {gap' : List Char → Prop} (himp : ∀ g, gap g → gap' g) {e : Expr ν τ}
    {cs : List Char} : Laid gap e cs → Laid gap' e cs
  | .leaf hleaf hs => .leaf hleaf hs
  | .string text => .string text
  | .quotation hitems h => .quotation hitems (h.imp himp)
  | .pair ha hg hb => .pair (ha.imp himp) (himp _ hg) (hb.imp himp)

theorem LaidAll.imp {gap' : List Char → Prop} (himp : ∀ g, gap g → gap' g) {es : List (Expr ν τ)}
    {cs : List Char} : LaidAll gap es cs → LaidAll gap' es cs
  | .nil => .nil
  | .one h => .one (h.imp himp)
  | .cons h hg hs => .cons (h.imp himp) (himp _ hg) (hs.imp himp)

end

theorem Laid.ne_nil {e : Expr ν τ} {cs : List Char} (h : Laid gap e cs) : cs ≠ [] := by
  cases h with
  | leaf hleaf hs => simpa using hs
  | string | quotation | pair => simp

theorem Laid.isComment {e : Expr ν τ} {cs : List Char} (h : Laid gap e cs) :
    e.isComment = false := by
  cases h with
  | leaf hleaf hs =>
    cases e with
    | comment =>
      simp only [Expr.leaf, Option.some.injEq] at hleaf
      exact absurd hleaf.symm hs
    | _ => rfl
  | string | quotation | pair => rfl

/-- All that is laid out shows. -/
theorem LaidAll.isComment {es : List (Expr ν τ)} {cs : List Char} :
    LaidAll gap es cs → ∀ e ∈ es, e.isComment = false
  | .nil => by simp
  | .one h => by simpa using h.isComment
  | .cons h _ hs => List.forall_mem_cons.mpr ⟨h.isComment, hs.isComment⟩

theorem LaidAll.shown {es : List (Expr ν τ)} {cs : List Char} (h : LaidAll gap es cs) :
    shown es = es :=
  List.filter_eq_self.mpr fun e he => by rw [h.isComment e he]; rfl

/-- There are no more expressions than characters. -/
theorem LaidAll.length_le {es : List (Expr ν τ)} {cs : List Char} :
    LaidAll gap es cs → es.length ≤ cs.length
  | .nil => Nat.le_refl 0
  | .one h => List.length_pos_iff.mpr h.ne_nil
  | .cons h _ hs => by
    have htail := hs.length_le
    have hhead := List.length_pos_iff.mpr h.ne_nil
    simp only [List.length_append, List.length_cons] at htail ⊢
    omega

/-! ## The rendering -/

theorem spell_of_leaf {e : Expr ν τ} {s : String} (h : e.leaf = some s) (hs : s ≠ "") :
    spell e = some s := by
  cases e with
  | quot | pair =>
    simp only [Expr.leaf, Option.some.injEq] at h
    exact absurd h.symm hs
  | _ => rw [spell, h] <;> simp

mutual

/-- **With single spaces for gaps a layout is what is rendered.** -/
theorem Laid.spell_eq {e : Expr ν τ} {cs : List Char} :
    Laid Space e cs → spell e = some (String.ofList cs)
  | .leaf hleaf hs => by
    rw [spell_of_leaf hleaf hs, String.ofList_toList]
  | .string text => by
    rw [spell, text?_map_chr]
    rfl
  | .quotation hitems h => by
    obtain ⟨texts, htexts, _, hcs⟩ := h.texts
    rw [spell, hitems, spellShown_eq_mapM, h.shown]
    simp [htexts, hcs, String.append_assoc]
  | .pair (g := g) ha hg hb => by
    obtain rfl : g = [' '] := hg
    rw [spell, ha.spell_eq, hb.spell_eq]
    simp [String.append_assoc]

theorem LaidAll.texts {es : List (Expr ν τ)} {cs : List Char} :
    LaidAll Space es cs →
      ∃ texts, es.mapM spell = some texts ∧ (∀ t ∈ texts, t ≠ "") ∧
        " ".intercalate texts = String.ofList cs
  | .nil => ⟨[], rfl, by simp, rfl⟩
  | .one h => by
    refine ⟨[String.ofList cs], ?_, ?_, ?_⟩
    · rw [mapM_cons_option, h.spell_eq]
      rfl
    · simpa using h.ne_nil
    · simp
  | .cons (s := s) (g := g) h hg hs => by
    obtain rfl : g = [' '] := hg
    obtain ⟨texts, htexts, hne, hcs⟩ := hs.texts
    refine ⟨String.ofList s :: texts, ?_, ?_, ?_⟩
    · rw [mapM_cons_option, h.spell_eq, htexts]
      rfl
    · exact List.forall_mem_cons.mpr ⟨by simpa using h.ne_nil, hne⟩
    · have htail : texts ≠ [] := by
        intro heq
        subst heq
        simp [Option.bind_eq_some_iff] at htexts
      rw [String.intercalate_cons_of_ne_nil htail, hcs]
      simp [String.append_assoc]

end

theorem LaidAll.render {es : List (Expr ν τ)} {cs : List Char} (h : LaidAll Space es cs) :
    Stack.render es = some (String.ofList cs) := by
  obtain ⟨texts, htexts, hne, hcs⟩ := h.texts
  have hrender : (Expr.render : Expr ν τ → Option String) = spell := funext render_eq_spell
  have hfilter : texts.filter (· ≠ "") = texts :=
    List.filter_eq_self.mpr fun t ht => by simpa using hne t ht
  rw [Stack.render, hrender, htexts, Option.map_some, hfilter, hcs]

/-! ## There is a layout -/

theorem exists_laidAll {g : List Char} (hg : gap g) {es : List (Expr ν τ)}
    (h : ∀ e ∈ es, ∃ cs, Laid gap e cs) : ∃ cs, LaidAll gap es cs := by
  induction es with
  | nil => exact ⟨[], .nil⟩
  | cons e rest ih =>
    obtain ⟨s, hs⟩ := h e List.mem_cons_self
    obtain ⟨t, ht⟩ := ih fun x hx => h x (List.mem_cons_of_mem e hx)
    cases rest with
    | nil => exact ⟨s, .one hs⟩
    | cons e' rest' => exact ⟨_, .cons hs hg ht⟩

/-- What is made of parts that have a text can be laid out. -/
theorem exists_laid {g : List Char} (hg : gap g) {e : Expr ν τ}
    (h : Everywhere (fun x => x.isLeaf = true → ∃ s, x.leaf = some s ∧ s ≠ "") e) :
    ∃ cs, Laid gap e cs := by
  induction e using nested_induction with
  | quotation items ih =>
    cases htext : text? items with
    | some text =>
      obtain rfl := text?_eq_some_iff.mp htext
      exact ⟨_, .string text⟩
    | none =>
      have hitems := (everywhere_quot.mp h).2
      obtain ⟨cs, hcs⟩ := exists_laidAll hg fun x hx => ih x hx (hitems x hx)
      exact ⟨_, .quotation htext hcs⟩
  | pair a b iha ihb =>
    obtain ⟨_, ha, hb⟩ := everywhere_pair.mp h
    obtain ⟨s, hs⟩ := iha ha
    obtain ⟨t, ht⟩ := ihb hb
    exact ⟨_, .pair hs hg ht⟩
  | leaf e hleaf =>
    obtain ⟨s, hs, hne⟩ := h.self hleaf
    exact ⟨_, .leaf hs hne⟩

end Expr
end Leftward
