import StreamLang.Completion.Proposal
import StreamLang.Proofs.FirstOccurrence

/-!
Proposals of equal texts, of which the first is kept.

`Proposal.keepFirst` looks at texts and at nothing else. So it does not matter whether proposals are
chosen by their texts before or after (`keepFirst_filter`), or changed in anything but their texts
(`keepFirst_map`), and proposals do not depend on the ones after them (`keepFirst_append`).
Strategies that make proposals for the same things therefore keep the same of them
(`exists_keepFirst_map`, `exists_keepFirst_alike`), and a strategy that comes a second time adds
nothing (`keepFirst_flatMap_eraseDups`). The texts that are kept are all texts, each where it occurs
first (`texts_keepFirst`).
-/

namespace StreamLang

namespace Proposal

variable {seen : List String} {ps qs : List Proposal} {p : Proposal}

/-! ## What is kept -/

theorem keepFirst_sublist : (keepFirst seen ps).Sublist ps := by
  induction ps generalizing seen with
  | nil => exact List.Sublist.refl []
  | cons a ps ih =>
      unfold keepFirst
      split
      · exact ih.cons a
      · exact ih.cons_cons a

theorem mem_of_mem_keepFirst (member : p ∈ keepFirst seen ps) : p ∈ ps :=
  keepFirst_sublist.subset member

/-- Every text that has not been seen is kept. -/
theorem exists_mem_keepFirst (member : p ∈ ps) (fresh : p.text ∉ seen) :
    ∃ p' ∈ keepFirst seen ps, p'.text = p.text := by
  induction ps generalizing seen with
  | nil => cases member
  | cons a ps ih =>
      unfold keepFirst
      rcases List.mem_cons.mp member with rfl | later
      · rw [if_neg fresh]
        exact ⟨p, List.mem_cons_self, rfl⟩
      · by_cases same : p.text = a.text
        · rw [← same, if_neg fresh]
          exact ⟨a, List.mem_cons_self, same.symm⟩
        · split
          · exact ih later fresh
          · have apart : p.text ∉ a.text :: seen := by simp [same, fresh]
            obtain ⟨p', kept, text⟩ := ih later apart
            exact ⟨p', List.mem_cons_of_mem _ kept, text⟩

/-- The texts that are kept are those that have not been seen, each where it occurs first. -/
theorem texts_keepFirst :
    (keepFirst seen ps).map Proposal.text =
      ((ps.map Proposal.text).filter fun s => decide (s ∉ seen)).eraseDups := by
  induction ps generalizing seen with
  | nil => rfl
  | cons a ps ih =>
      rw [keepFirst, List.map_cons]
      by_cases known : a.text ∈ seen
      · rw [if_pos known, List.filter_cons_of_neg (by simp [known]), ih]
      · rw [if_neg known, List.filter_cons_of_pos (by simp [known]), List.map_cons, ih,
          List.eraseDups_cons, List.filter_filter]
        congr 2
        apply List.filter_congr
        intro s _
        rw [Bool.eq_iff_iff]
        simp

theorem texts_keepFirst_nil :
    (keepFirst [] ps).map Proposal.text = (ps.map Proposal.text).eraseDups := by
  rw [texts_keepFirst, List.filter_eq_self.mpr fun s _ => by simp]

theorem keepFirst_eq_nil (known : ∀ p ∈ ps, p.text ∈ seen) : keepFirst seen ps = [] := by
  induction ps with
  | nil => rfl
  | cons a ps ih =>
      rw [keepFirst, if_pos (known a List.mem_cons_self)]
      exact ih fun p later => known p (List.mem_cons_of_mem a later)

/-! ## What has been seen -/

/-- Which texts have been seen matters for the texts of the proposals only. -/
theorem keepFirst_congr {seen' : List String}
    (same : ∀ p ∈ ps, p.text ∈ seen ↔ p.text ∈ seen') : keepFirst seen ps = keepFirst seen' ps := by
  induction ps generalizing seen seen' with
  | nil => rfl
  | cons a ps ih =>
      have first := same a List.mem_cons_self
      have others : ∀ p ∈ ps, p.text ∈ seen ↔ p.text ∈ seen' :=
        fun p later => same p (List.mem_cons_of_mem a later)
      unfold keepFirst
      by_cases known : a.text ∈ seen
      · rw [if_pos known, if_pos (first.mp known)]
        exact ih others
      · rw [if_neg known, if_neg (mt first.mpr known)]
        congr 1
        apply ih
        intro p later
        rw [List.mem_cons, List.mem_cons, others p later]

theorem keepFirst_append :
    keepFirst seen (ps ++ qs) =
      keepFirst seen ps ++ keepFirst (ps.map Proposal.text ++ seen) qs := by
  induction ps generalizing seen with
  | nil => rfl
  | cons a ps ih =>
      rw [List.cons_append, keepFirst, keepFirst, List.map_cons, List.cons_append]
      by_cases known : a.text ∈ seen
      · rw [if_pos known, if_pos known, ih]
        congr 1
        apply keepFirst_congr
        intro p _
        simp only [List.mem_cons, List.mem_append]
        constructor
        · exact Or.inr
        · intro either
          rcases either with same | other
          · exact Or.inr (same ▸ known)
          · exact other
      · rw [if_neg known, if_neg known, ih, List.cons_append]
        congr 2
        apply keepFirst_congr
        intro p _
        simp only [List.mem_cons, List.mem_append]
        exact or_left_comm

/-! ## Choosing and changing proposals -/

theorem keepFirst_filter {choose : Proposal → Bool} (chooseText : String → Bool)
    (ofText : ∀ p, choose p = chooseText p.text) :
    (keepFirst seen ps).filter choose = keepFirst seen (ps.filter choose) := by
  induction ps generalizing seen with
  | nil => rfl
  | cons a ps ih =>
      rw [keepFirst]
      by_cases chosen : choose a = true
      · rw [List.filter_cons_of_pos chosen, keepFirst]
        by_cases known : a.text ∈ seen
        · rw [if_pos known, if_pos known, ih]
        · rw [if_neg known, if_neg known, List.filter_cons_of_pos chosen, ih]
      · rw [List.filter_cons_of_neg chosen]
        by_cases known : a.text ∈ seen
        · rw [if_pos known, ih]
        · rw [if_neg known, List.filter_cons_of_neg chosen, ih]
          -- A text that is not chosen counts as seen, and none of the chosen ones is equal to it.
          apply keepFirst_congr
          intro p member
          have apart : p.text ≠ a.text := by
            intro same
            rw [ofText, ← same, ← ofText] at chosen
            exact chosen (List.mem_filter.mp member).2
          simp [apart]

/-- Choosing the first proposals leaves what is kept of them, whatever follows. -/
theorem keepFirst_append_filter {choose : Proposal → Bool} (first : ∀ p ∈ ps, choose p = true)
    (others : ∀ p ∈ qs, choose p = false) :
    (keepFirst seen (ps ++ qs)).filter choose = keepFirst seen ps := by
  have kept : (keepFirst seen ps).filter choose = keepFirst seen ps :=
    List.filter_eq_self.mpr fun p member => first p (mem_of_mem_keepFirst member)
  have dropped : (keepFirst (ps.map Proposal.text ++ seen) qs).filter choose = [] := by
    apply List.filter_eq_nil_iff.mpr
    intro p member
    rw [others p (mem_of_mem_keepFirst member)]
    exact Bool.false_ne_true
  rw [keepFirst_append, List.filter_append, kept, dropped, List.append_nil]

/-- Choosing what is not among the first proposals leaves what is kept of the others, if their texts
are different. -/
theorem filter_not_mem_keepFirst_append (apart : ∀ a ∈ ps, ∀ b ∈ qs, a.text ≠ b.text) :
    (keepFirst [] (ps ++ qs)).filter (fun p => p ∉ ps) = keepFirst [] qs := by
  have dropped : (keepFirst [] ps).filter (fun p => p ∉ ps) = [] := by
    apply List.filter_eq_nil_iff.mpr
    intro p member
    simp [mem_of_mem_keepFirst member]
  have unseen : keepFirst (ps.map Proposal.text ++ []) qs = keepFirst [] qs := by
    apply keepFirst_congr
    intro b other
    simp only [List.append_nil, List.mem_map, List.not_mem_nil, iff_false, not_exists, not_and]
    exact fun a member => apart a member b other
  have kept : (keepFirst [] qs).filter (fun p => p ∉ ps) = keepFirst [] qs := by
    apply List.filter_eq_self.mpr
    intro b other
    have fresh : b ∉ ps := fun member => apart b member b (mem_of_mem_keepFirst other) rfl
    simp [fresh]
  rw [keepFirst_append, List.filter_append, dropped, unseen, kept, List.nil_append]

/-- Proposals that are left out make room for others of their texts, and take away none of the
others. -/
theorem filter_keepFirst_sublist {choose : Proposal → Bool} {seen' : List String}
    (fewer : ∀ s ∈ seen', s ∈ seen) :
    ((keepFirst seen ps).filter choose).Sublist (keepFirst seen' (ps.filter choose)) := by
  induction ps generalizing seen seen' with
  | nil => exact List.Sublist.refl []
  | cons a ps ih =>
      rw [keepFirst]
      by_cases chosen : choose a = true
      · rw [List.filter_cons_of_pos chosen, keepFirst]
        have more : ∀ s ∈ a.text :: seen', s ∈ a.text :: seen := fun s member => by
          rcases List.mem_cons.mp member with rfl | other
          · exact List.mem_cons_self
          · exact List.mem_cons_of_mem _ (fewer s other)
        by_cases known : a.text ∈ seen
        · rw [if_pos known]
          split
          · exact ih fewer
          · refine (ih fun s member => ?_).cons a
            rcases List.mem_cons.mp member with rfl | other
            · exact known
            · exact fewer s other
        · rw [if_neg known, if_neg (mt (fewer _) known), List.filter_cons_of_pos chosen]
          exact (ih more).cons_cons a
      · rw [List.filter_cons_of_neg chosen]
        split
        · exact ih fewer
        · rw [List.filter_cons_of_neg chosen]
          exact ih fun s member => List.mem_cons_of_mem _ (fewer s member)

theorem keepFirst_map (change : Proposal → Proposal) (same : ∀ p, (change p).text = p.text) :
    keepFirst seen (ps.map change) = (keepFirst seen ps).map change := by
  induction ps generalizing seen with
  | nil => rfl
  | cons a ps ih =>
      rw [List.map_cons, keepFirst, keepFirst, same]
      split
      · exact ih
      · rw [List.map_cons, ih]

/-- The proposal under another kind. -/
def withKind (kind : ProposalKind) (p : Proposal) : Proposal := { p with kind }

/-! ## Proposals made for some things -/

section Made

variable {α : Type}

/-- What is kept of the proposals made for some things is made for the first of each text. -/
theorem exists_keepFirst_firsts (make : α → Proposal) (xs : List α) (seen : List String) :
    ∃ ys : List α, ys.Sublist xs ∧ keepFirst seen (xs.map make) = ys.map make ∧
      ∀ x, x ∈ ys ↔ (make x).text ∉ seen ∧
        xs.find? (fun y => (make y).text == (make x).text) = some x := by
  induction xs generalizing seen with
  | nil => exact ⟨[], List.Sublist.refl [], rfl, by simp⟩
  | cons a xs ih =>
      by_cases known : (make a).text ∈ seen
      · obtain ⟨ys, among, kept, first⟩ := ih seen
        refine ⟨ys, among.cons a, by rw [List.map_cons, keepFirst, if_pos known, kept], fun x => ?_⟩
        rw [first, and_congr_right_iff]
        intro fresh
        have apart : (make a).text ≠ (make x).text := fun same => fresh (same ▸ known)
        rw [List.find?_cons_of_neg (by simpa using apart)]
      · obtain ⟨ys, among, kept, first⟩ := ih ((make a).text :: seen)
        refine ⟨a :: ys, among.cons_cons a, ?_, fun x => ?_⟩
        · rw [List.map_cons, keepFirst, if_neg known, kept, List.map_cons]
        · rw [List.mem_cons, first, List.mem_cons, not_or]
          by_cases same : (make a).text = (make x).text
          · rw [List.find?_cons_of_pos (by simpa using same)]
            simp [← same, known, eq_comm]
          · rw [List.find?_cons_of_neg (by simpa using same)]
            have other : x ≠ a := fun equal => same (equal ▸ rfl)
            simp [other, Ne.symm same]

/-- Two ways to make proposals whose texts are equal for the same things keep those for the same
things. -/
theorem exists_keepFirst_alike {make make' : α → Proposal}
    (alike : ∀ x y, (make x).text = (make y).text ↔ (make' x).text = (make' y).text)
    (xs : List α) :
    ∃ ys : List α, ys.Sublist xs ∧ keepFirst [] (xs.map make) = ys.map make ∧
      keepFirst [] (xs.map make') = ys.map make' := by
  -- What has been seen are the texts of some things, made in the one way and in the other.
  suffices general : ∀ zs : List α, ∃ ys : List α, ys.Sublist xs ∧
      keepFirst (zs.map fun z => (make z).text) (xs.map make) = ys.map make ∧
      keepFirst (zs.map fun z => (make' z).text) (xs.map make') = ys.map make' from general []
  induction xs with
  | nil => exact fun _ => ⟨[], List.Sublist.refl [], rfl, rfl⟩
  | cons a xs ih =>
      intro zs
      have known : (make a).text ∈ zs.map (fun z => (make z).text) ↔
          (make' a).text ∈ zs.map (fun z => (make' z).text) := by
        simp only [List.mem_map, alike]
      by_cases seen : (make a).text ∈ zs.map (fun z => (make z).text)
      · obtain ⟨ys, among, kept, kept'⟩ := ih zs
        refine ⟨ys, among.cons a, ?_, ?_⟩
        · rw [List.map_cons, keepFirst, if_pos seen, kept]
        · rw [List.map_cons, keepFirst, if_pos (known.mp seen), kept']
      · obtain ⟨ys, among, kept, kept'⟩ := ih (a :: zs)
        rw [List.map_cons] at kept kept'
        refine ⟨a :: ys, among.cons_cons a, ?_, ?_⟩
        · rw [List.map_cons, keepFirst, if_neg seen, kept, List.map_cons]
        · rw [List.map_cons, keepFirst, if_neg (mt known.mpr seen), kept', List.map_cons]

/-- What is kept of the proposals made for some things is made for some of them, and no text gets
lost. They are the same ones for proposals of another kind, and it does not matter when they are
chosen by their texts. -/
theorem exists_keepFirst_map (make : ProposalKind → α → Proposal)
    (same : ∀ k k' x, make k' x = (make k x).withKind k') (xs : List α) :
    ∃ ys : List α, ys.Sublist xs ∧ (∀ x ∈ xs, ∃ y ∈ ys, ∀ k, (make k y).text = (make k x).text) ∧
      (∀ k, keepFirst [] (xs.map (make k)) = ys.map (make k)) ∧
      ∀ {choose : α → Bool} (chooseText : String → Bool),
        (∀ k x, choose x = chooseText (make k x).text) →
        ∀ k, keepFirst [] ((xs.filter choose).map (make k)) = (ys.filter choose).map (make k) := by
  -- What additions are kept for decides about the other kinds, whose texts are the same.
  obtain ⟨ys, among, kept, -⟩ := exists_keepFirst_firsts (make .addition) xs []
  have whole : ∀ x ∈ xs, ∃ y ∈ ys, ∀ k, (make k y).text = (make k x).text := by
    intro x member
    have made : make .addition x ∈ xs.map (make .addition) := List.mem_map_of_mem member
    obtain ⟨p, keptOne, text⟩ := exists_mem_keepFirst made List.not_mem_nil
    rw [kept] at keptOne
    obtain ⟨y, inside, rfl⟩ := List.mem_map.mp keptOne
    refine ⟨y, inside, fun k => ?_⟩
    rw [same .addition k y, same .addition k x]
    exact text
  have anyKind : ∀ k, keepFirst [] (xs.map (make k)) = ys.map (make k) := by
    intro k
    have changed : make k = withKind k ∘ make .addition := funext fun x => same .addition k x
    rw [changed, ← List.map_map, keepFirst_map (withKind k) fun _ => rfl, kept, List.map_map]
  refine ⟨ys, among, whole, anyKind, ?_⟩
  intro choose chooseText ofText k
  have texts : choose = (fun p => chooseText p.text) ∘ make k := funext fun x => ofText k x
  rw [texts, ← List.filter_map, ← keepFirst_filter chooseText fun _ => rfl, anyKind,
    List.filter_map]

/-- Things whose proposals come a second time add nothing. -/
theorem keepFirst_flatMap_filter [DecidableEq α] {make : α → List Proposal} {x : α}
    (known : ∀ p ∈ make x, p.text ∈ seen) (xs : List α) :
    keepFirst seen ((xs.filter fun y => !y == x).flatMap make) =
      keepFirst seen (xs.flatMap make) := by
  induction xs generalizing seen with
  | nil => rfl
  | cons y xs ih =>
      have known' : ∀ p ∈ make x, p.text ∈ (make y).map Proposal.text ++ seen := fun p member =>
        List.mem_append_right _ (known p member)
      by_cases same : y = x
      · subst same
        rw [List.filter_cons_of_neg (by simp), List.flatMap_cons, keepFirst_append,
          keepFirst_eq_nil known, List.nil_append, ih known]
        apply keepFirst_congr
        intro p _
        simp only [List.mem_append, List.mem_map]
        constructor
        · exact Or.inr
        · rintro (⟨p', member, text⟩ | other)
          · exact text ▸ known p' member
          · exact other
      · rw [List.filter_cons_of_pos (by simp [same]), List.flatMap_cons, List.flatMap_cons,
          keepFirst_append, keepFirst_append, ih known']

theorem keepFirst_flatMap_eraseDups [DecidableEq α] (make : α → List Proposal) (xs : List α) :
    keepFirst seen (xs.eraseDups.flatMap make) = keepFirst seen (xs.flatMap make) := by
  induction xs using eraseDupsInduction generalizing seen with
  | nil => rfl
  | cons a xs ih =>
      have known : ∀ p ∈ make a, p.text ∈ (make a).map Proposal.text ++ seen := fun p member =>
        List.mem_append_left _ (List.mem_map_of_mem member)
      rw [List.eraseDups_cons, List.flatMap_cons, List.flatMap_cons, keepFirst_append,
        keepFirst_append, ih, keepFirst_flatMap_filter known]

/-- When different things have different texts, what is kept is made for each of them once. -/
theorem keepFirst_map_of_injective [DecidableEq α] {make : α → Proposal}
    (injective : ∀ x y, (make x).text = (make y).text → x = y) (xs : List α) :
    keepFirst [] (xs.map make) = xs.eraseDups.map make := by
  obtain ⟨ys, -, kept, -⟩ := exists_keepFirst_firsts make xs []
  have texts : (keepFirst [] (xs.map make)).map Proposal.text =
      ((xs.map make).map Proposal.text).eraseDups := texts_keepFirst_nil
  rw [kept, List.map_map, List.map_map,
    eraseDups_map (f := Proposal.text ∘ make) injective] at texts
  have same : ys = xs.eraseDups := by
    refine List.map_inj_right ?_ |>.mp texts
    exact injective
  rw [kept, same]

end Made

end Proposal

end StreamLang
