import Mathlib.Data.List.Count
import Mathlib.Data.List.Sort
import Mathlib.Data.Prod.Lex

/-!
# The best elements of a stream, in a bounded heap

A heap of at most `n` elements of a stream, with the worst on top: an element enters while there
is room, and then only by a higher score than that of the top, which leaves. The heap is given as
the list of its elements in the order they would be popped. Among equal scores the smaller index
is popped first.

The scores of what is kept are the best ones (`Split`). Which of equal scores is kept depends on
the order of the stream: `mem_iff_isFirst` says when it is the smaller indices.
-/

namespace Spp.TopK

variable {α R ι : Type} [LinearOrder R] [LinearOrder ι] (score : α → R) (index : α → ι) (n : ℕ)

/-- What the heap is ordered by. -/
def popKey (a : α) : R ×ₗ ι := toLex (score a, index a)

/-- The heap with one more element. -/
def push (heap : List α) (a : α) : List α :=
  heap.orderedInsert (fun a b ↦ popKey score index a ≤ popKey score index b) a

/-- One round of the selection; there is no top in an empty heap. -/
def offer (heap : List α) (a : α) : Option (List α) :=
  if heap.length < n then some (push score index heap a)
  else
    match heap with
    | [] => none
    | top :: rest => if score top < score a then some (push score index rest a) else some heap

/-- The rounds for the elements of a stream. -/
def offerAll (heap : List α) (as : List α) : Option (List α) := as.foldlM (offer score index n) heap

/-- An element comes before another: by a higher score, or by its index among equal scores. -/
def Ahead (b a : α) : Prop := score a < score b ∨ score b = score a ∧ index b < index a

instance decidableAhead (a b : α) : Decidable (Ahead score index a b) :=
  inferInstanceAs (Decidable (_ ∨ _ ∧ _))

/-- One of the first `n` of a stream, by score and then by index. -/
def IsFirst (as : List α) (a : α) : Prop :=
  a ∈ as ∧ (as.countP fun b ↦ Ahead score index b a) < n

/-- `n` elements at least as good came before it. -/
def Late (as : List α) (a : α) : Prop :=
  ∃ p q, as = p ++ a :: q ∧ n ≤ p.countP fun b ↦ score a ≤ score b

/-- A better element came after it and after `n` elements at least as good as it. -/
def Passed (as : List α) (a : α) : Prop :=
  ∃ p e q, as = p ++ e :: q ∧ a ∈ p ∧ score a < score e ∧ n ≤ p.countP fun b ↦ score a ≤ score b

/-- The `n`-th best score was reached `n` times before a better element came. -/
def Overtaken (as : List α) : Prop :=
  ∃ a, Passed score n as a ∧ (as.countP fun b ↦ score a < score b) < n

/-- The `n`-th best score is also that of an element which is not among `n` best ones. -/
def Straddles (as : List α) : Prop :=
  ∃ a ∈ as, (as.countP fun b ↦ score a < score b) < n ∧ n < as.countP fun b ↦ score a ≤ score b

/-- What the heap holds of a stream, and what was left out. -/
structure Split (as heap left : List α) : Prop where
  perm : (heap ++ left).Perm as
  sorted : heap.Pairwise fun a b ↦ popKey score index a ≤ popKey score index b
  length_le : heap.length ≤ n
  full : left ≠ [] → heap.length = n
  le : ∀ a ∈ left, ∀ b ∈ heap, score a ≤ score b
  gone : ∀ a ∈ left, Late score n as a ∨ Passed score n as a

variable {score index n} {as heap heap' left : List α} {a b : α}

/-! ### One round -/

theorem perm_push : (push score index heap a).Perm (a :: heap) := List.perm_orderedInsert _ _ _

theorem mem_push : b ∈ push score index heap a ↔ b = a ∨ b ∈ heap := by
  rw [perm_push.mem_iff, List.mem_cons]

theorem length_push : (push score index heap a).length = heap.length + 1 := by
  rw [perm_push.length_eq, List.length_cons]

theorem sorted_push (h : heap.Pairwise fun a b ↦ popKey score index a ≤ popKey score index b) :
    (push score index heap a).Pairwise fun a b ↦ popKey score index a ≤ popKey score index b := by
  have htotal : Std.Total fun a b ↦ popKey score index a ≤ popKey score index b :=
    ⟨fun a b ↦ le_total _ _⟩
  have htrans : IsTrans α fun a b ↦ popKey score index a ≤ popKey score index b :=
    ⟨fun a b c ↦ le_trans⟩
  exact List.Pairwise.orderedInsert a heap h

theorem score_le_of_popKey_le (h : popKey score index a ≤ popKey score index b) :
    score a ≤ score b := by
  rcases (Prod.Lex.toLex_le_toLex).1 h with hlt | ⟨heq, -⟩
  · exact hlt.le
  · exact heq.le

/-- What a round does: there is room, or the top leaves, or the element is passed over. -/
theorem offer_cases (h : offer score index n heap a = some heap') :
    (heap.length < n ∧ heap' = push score index heap a) ∨
      ∃ top rest, heap = top :: rest ∧ n ≤ heap.length ∧
        (score top < score a ∧ heap' = push score index rest a ∨
          score a ≤ score top ∧ heap' = heap) := by
  unfold offer at h
  split_ifs at h with hroom
  · exact Or.inl ⟨hroom, (Option.some.inj h).symm⟩
  · cases heap with
    | nil => cases h
    | cons top rest =>
      dsimp only at h
      refine Or.inr ⟨top, rest, rfl, not_lt.1 hroom, ?_⟩
      split_ifs at h with hlt
      · exact Or.inl ⟨hlt, (Option.some.inj h).symm⟩
      · exact Or.inr ⟨not_lt.1 hlt, (Option.some.inj h).symm⟩

/-- A round succeeds unless it looks at the top of an empty heap. -/
theorem isSome_offer (h : heap ≠ [] ∨ 0 < n) : (offer score index n heap a).isSome := by
  unfold offer
  split_ifs with hroom
  · rfl
  · cases heap with
    | nil => exact absurd (h.resolve_left fun hne ↦ hne rfl) hroom
    | cons top rest =>
      dsimp only
      split_ifs <;> rfl

theorem Late.append (h : Late score n as a) (b : α) : Late score n (as ++ [b]) a := by
  obtain ⟨p, q, rfl, hcount⟩ := h
  exact ⟨p, q ++ [b], by simp, hcount⟩

theorem Passed.append (h : Passed score n as a) (b : α) : Passed score n (as ++ [b]) a := by
  obtain ⟨p, e, q, rfl, hmem, hlt, hcount⟩ := h
  exact ⟨p, e, q ++ [b], by simp, hmem, hlt, hcount⟩

namespace Split

theorem nil : Split score index n [] [] [] where
  perm := .nil
  sorted := .nil
  length_le := Nat.zero_le n
  full h := absurd rfl h
  le _ h := absurd h List.not_mem_nil
  gone _ h := absurd h List.not_mem_nil

variable (h : Split score index n as heap left)

include h

theorem mem_iff : a ∈ as ↔ a ∈ heap ∨ a ∈ left := by
  rw [← h.perm.mem_iff, List.mem_append]

theorem length : heap.length = min n as.length := by
  have hlen := h.perm.length_eq
  rw [List.length_append] at hlen
  cases left with
  | nil =>
    have hle := h.length_le
    rw [List.length_nil] at hlen
    omega
  | cons b left =>
    have hfull := h.full (List.cons_ne_nil _ _)
    rw [List.length_cons] at hlen
    omega

theorem countP_eq (P : α → Bool) : as.countP P = heap.countP P + left.countP P := by
  rw [← h.perm.countP_eq, List.countP_append]

/-- When something was left out, or is about to be, what is kept is at least as good as the top. -/
theorem le_countP {s : R} (hs : ∀ b ∈ heap, s ≤ score b) (hfull : heap.length = n) :
    n ≤ as.countP fun b ↦ s ≤ score b := by
  have hheap : heap.countP (fun b ↦ decide (s ≤ score b)) = heap.length :=
    List.countP_eq_length.2 fun b hb ↦ decide_eq_true (hs b hb)
  rw [h.countP_eq]
  omega

/-- **One round** keeps the heap a selection, and what was left out stays out. -/
theorem offer (hoffer : offer score index n heap a = some heap') :
    ∃ left', Split score index n (as ++ [a]) heap' left' ∧ ∀ b ∈ left, b ∈ left' := by
  have hgone : ∀ b ∈ left, Late score n (as ++ [a]) b ∨ Passed score n (as ++ [a]) b :=
    fun b hb ↦ (h.gone b hb).imp (·.append a) (·.append a)
  obtain ⟨hroom, rfl⟩ | ⟨top, rest, rfl, hfull, hcase⟩ := offer_cases hoffer
  · obtain rfl : left = [] := by
      by_contra hne
      exact absurd (h.full hne) hroom.ne
    have hperm : heap.Perm as := by simpa using h.perm
    refine ⟨[], ?_, fun _ hb ↦ hb⟩
    exact { perm := by
              rw [List.append_nil]
              exact perm_push.trans ((hperm.cons a).trans (List.perm_append_singleton a as).symm)
            sorted := sorted_push h.sorted
            length_le := length_push.trans_le hroom
            full := fun hne ↦ absurd rfl hne
            le := fun _ hb ↦ absurd hb List.not_mem_nil
            gone := fun _ hb ↦ absurd hb List.not_mem_nil }
  · have hlen : (top :: rest).length = n := le_antisymm h.length_le hfull
    have htop : ∀ b ∈ top :: rest, score top ≤ score b := fun b hb ↦ by
      rcases List.mem_cons.1 hb with rfl | hrest
      · exact le_rfl
      · exact score_le_of_popKey_le ((List.pairwise_cons.1 h.sorted).1 b hrest)
    have hcount := h.le_countP htop hlen
    rcases hcase with ⟨hlt, rfl⟩ | ⟨hle, rfl⟩
    · refine ⟨top :: left, ?_, fun _ hb ↦ List.mem_cons_of_mem _ hb⟩
      exact { perm := by
                have hmove : (push score index rest a ++ top :: left).Perm
                    (a :: (top :: rest ++ left)) := by
                  refine (perm_push.append_right _).trans ?_
                  rw [List.cons_append, List.cons_append]
                  exact List.perm_middle.cons a
                exact hmove.trans ((h.perm.cons a).trans (List.perm_append_singleton a as).symm)
              sorted := sorted_push (List.pairwise_cons.1 h.sorted).2
              length_le := (length_push.trans hlen).le
              full := fun _ ↦ length_push.trans hlen
              le := by
                intro b hb c hc
                have hb' : score b ≤ score top := by
                  rcases List.mem_cons.1 hb with rfl | hleft
                  · exact le_rfl
                  · exact h.le b hleft top List.mem_cons_self
                rcases mem_push.1 hc with rfl | hrest
                · exact hb'.trans hlt.le
                · exact hb'.trans (htop c (List.mem_cons_of_mem _ hrest))
              gone := by
                intro b hb
                rcases List.mem_cons.1 hb with rfl | hleft
                · exact Or.inr ⟨as, a, [], rfl,
                    h.mem_iff.2 (Or.inl List.mem_cons_self), hlt, hcount⟩
                · exact hgone b hleft }
    · refine ⟨a :: left, ?_, fun _ hb ↦ List.mem_cons_of_mem _ hb⟩
      exact { perm := List.perm_middle.trans
                ((h.perm.cons a).trans (List.perm_append_singleton a as).symm)
              sorted := h.sorted
              length_le := h.length_le
              full := fun _ ↦ hlen
              le := by
                intro b hb c hc
                rcases List.mem_cons.1 hb with rfl | hleft
                · exact hle.trans (htop c hc)
                · exact h.le b hleft c hc
              gone := by
                intro b hb
                rcases List.mem_cons.1 hb with rfl | hleft
                · refine Or.inl ⟨as, [], rfl, h.le_countP (fun c hc ↦ hle.trans (htop c hc)) hlen⟩
                · exact hgone b hleft }

end Split

/-! ### The whole stream -/

theorem offerAll_cons : offerAll score index n heap (a :: as) =
    (offer score index n heap a).bind fun heap ↦ offerAll score index n heap as := rfl

theorem offerAll_append {bs : List α} : offerAll score index n heap (as ++ bs) =
    (offerAll score index n heap as).bind fun heap ↦ offerAll score index n heap bs :=
  List.foldlM_append

/-- The rounds of a stream keep the heap a selection, and what was left out stays out. -/
theorem Split.offerAll {bs : List α} : ∀ {as heap left : List α}, Split score index n as heap left →
    TopK.offerAll score index n heap bs = some heap' →
      ∃ left', Split score index n (as ++ bs) heap' left' ∧ ∀ b ∈ left, b ∈ left' := by
  induction bs with
  | nil =>
    intro as heap left h hrun
    obtain rfl : heap = heap' := Option.some.inj hrun
    exact ⟨left, by rwa [List.append_nil], fun _ hb ↦ hb⟩
  | cons a bs ih =>
    intro as heap left h hrun
    obtain ⟨heap₁, hoffer, hrest⟩ := Option.bind_eq_some_iff.1 hrun
    obtain ⟨left₁, hsplit, hsub⟩ := h.offer hoffer
    obtain ⟨left', hsplit', hsub'⟩ := ih hsplit hrest
    rw [List.append_assoc, List.singleton_append] at hsplit'
    exact ⟨left', hsplit', fun b hb ↦ hsub' b (hsub b hb)⟩

theorem split_offerAll (h : offerAll score index n [] as = some heap) :
    ∃ left, Split score index n as heap left := by
  obtain ⟨left, hsplit, -⟩ := Split.nil.offerAll h
  exact ⟨left, hsplit⟩

/-- **The heap is never looked at when it is empty**, unless it must stay empty and the stream is
not. -/
theorem isSome_offerAll_iff :
    (offerAll score index n [] as).isSome ↔ 0 < n ∨ as = [] := by
  constructor
  · intro h
    by_contra! hn
    obtain ⟨hn, hne⟩ := hn
    obtain ⟨a, as, rfl⟩ := List.exists_cons_of_ne_nil hne
    have hzero : n = 0 := by omega
    subst hzero
    cases h
  · rintro (hn | rfl)
    · have hrun : ∀ heap, (offerAll score index n heap as).isSome := by
        induction as with
        | nil => exact fun _ ↦ rfl
        | cons a as ih =>
          intro heap
          have hsome : (offer score index n heap a).isSome := isSome_offer (Or.inr hn)
          obtain ⟨heap₁, hoffer⟩ := Option.isSome_iff_exists.1 hsome
          rw [offerAll_cons, hoffer]
          exact ih heap₁
      exact hrun []
    · rfl

/-! ### Ties -/

theorem Ahead.trans {c : α} (h : Ahead score index a b) (h' : Ahead score index b c) :
    Ahead score index a c := by
  rcases h with h | ⟨h, hi⟩ <;> rcases h' with h' | ⟨h', hi'⟩
  · exact Or.inl (h'.trans h)
  · exact Or.inl (h'.symm ▸ h)
  · exact Or.inl (h ▸ h')
  · exact Or.inr ⟨h.trans h', hi.trans hi'⟩

theorem Ahead.irrefl : ¬Ahead score index a a := by
  rintro (h | ⟨-, h⟩)
  · exact lt_irrefl _ h
  · exact lt_irrefl _ h

theorem countP_lt_le : (as.countP fun b ↦ score a < score b) ≤
    as.countP fun b ↦ Ahead score index b a :=
  List.countP_mono_left fun _ _ h ↦ decide_eq_true (Or.inl (of_decide_eq_true h))

theorem nodup_of_index (hindex : as.Pairwise fun a b ↦ index a < index b) : as.Nodup := by
  refine List.Pairwise.imp (fun {a b} hlt heq ↦ ?_) hindex
  exact lt_irrefl _ (heq ▸ hlt : index a < index a)

/-- What is ahead of an element, with an element that is not, fits into a list that has both. -/
theorem countP_ahead_lt {kept : List α} (hnodup : as.Nodup) (ha : a ∈ kept)
    (hab : ¬Ahead score index a b) (hkept : ∀ c ∈ as, Ahead score index c b → c ∈ kept) :
    (as.countP fun c ↦ Ahead score index c b) < kept.length := by
  have hcons : (a :: as.filter fun c ↦ Ahead score index c b).Nodup := by
    refine List.nodup_cons.2 ⟨fun hmem ↦ hab ?_, hnodup.filter _⟩
    exact of_decide_eq_true (List.mem_filter.1 hmem).2
  have hsub : (a :: as.filter fun c ↦ Ahead score index c b) ⊆ kept := by
    intro c hc
    rcases List.mem_cons.1 hc with rfl | hc
    · exact ha
    · obtain ⟨hmem, hcb⟩ := List.mem_filter.1 hc
      exact hkept c hmem (of_decide_eq_true hcb)
  have hle := hcons.length_le_of_subset hsub
  rwa [List.length_cons, ← List.countP_eq_length_filter] at hle

/-- Some kept elements that include the first `n` are no others. -/
theorem isFirst_of_mem {kept : List α} (hnodup : as.Nodup) (hlen : kept.length ≤ n)
    (hsub : ∀ b ∈ kept, b ∈ as) (hfirst : ∀ b, IsFirst score index n as b → b ∈ kept)
    (ha : a ∈ kept) : IsFirst score index n as a := by
  have hrank : ∀ b, ¬Ahead score index a b → (∀ c ∈ as, Ahead score index c b → c ∈ kept) →
      (as.countP fun c ↦ Ahead score index c b) < n :=
    fun b hab hkept ↦ (countP_ahead_lt hnodup ha hab hkept).trans_le hlen
  -- everything ahead of `a` is kept: by induction on how much is ahead of it
  have hall : ∀ m b, (as.countP fun c ↦ Ahead score index c b) = m → b ∈ as →
      Ahead score index b a → b ∈ kept := by
    intro m
    induction m using Nat.strongRecOn with
    | ind m ih =>
      intro b hm hb hba
      have hab : ¬Ahead score index a b := fun hab ↦ Ahead.irrefl (hab.trans hba)
      refine hfirst b ⟨hb, hrank b hab fun c hc hcb ↦ ?_⟩
      have hlt : (as.countP fun x ↦ Ahead score index x c) < m := by
        rw [← hm, List.countP_eq_length_filter (p := fun x ↦ decide (Ahead score index x b))]
        refine countP_ahead_lt hnodup (List.mem_filter.2 ⟨hc, decide_eq_true hcb⟩) Ahead.irrefl ?_
        exact fun x hx hxc ↦ List.mem_filter.2 ⟨hx, decide_eq_true (hxc.trans hcb)⟩
      exact ih _ hlt c rfl hc (hcb.trans hba)
  exact ⟨hsub a ha, hrank a Ahead.irrefl fun c hc hca ↦ hall _ c rfl hc hca⟩

/-- One that is too late is not among the first. -/
theorem Late.not_isFirst (hindex : as.Pairwise fun a b ↦ index a < index b)
    (h : Late score n as a) : ¬IsFirst score index n as a := by
  rintro ⟨-, hlt⟩
  obtain ⟨p, q, rfl, hcount⟩ := h
  have hbefore : ∀ b ∈ p, index b < index a := fun b hb ↦
    (List.pairwise_append.1 hindex).2.2 b hb a List.mem_cons_self
  have hle : (p.countP fun b ↦ score a ≤ score b) ≤ p.countP fun b ↦ Ahead score index b a := by
    refine List.countP_mono_left fun b hb hge ↦ decide_eq_true ?_
    rcases (of_decide_eq_true hge).lt_or_eq with hgt | heq
    · exact Or.inl hgt
    · exact Or.inr ⟨heq.symm, hbefore b hb⟩
  rw [List.countP_append] at hlt
  omega

omit [LinearOrder R] in
/-- The first of the elements of a score. -/
theorem exists_first_tie (score : α → R) (ha : a ∈ as) :
    ∃ p t q, as = p ++ t :: q ∧ score t = score a ∧ ∀ b ∈ p, score b ≠ score a := by
  induction as with
  | nil => exact absurd ha List.not_mem_nil
  | cons c as ih =>
    by_cases hc : score c = score a
    · exact ⟨[], c, as, rfl, hc, fun _ hb ↦ absurd hb List.not_mem_nil⟩
    · have hmem : a ∈ as := (List.mem_cons.1 ha).resolve_left fun heq ↦ hc (heq ▸ rfl)
      obtain ⟨p, t, q, rfl, ht, hp⟩ := ih hmem
      refine ⟨c :: p, t, q, rfl, ht, fun b hb ↦ ?_⟩
      rcases List.mem_cons.1 hb with rfl | hb
      · exact hc
      · exact hp b hb

omit [LinearOrder R] in
/-- The others of its score have greater indices. -/
theorem index_lt_of_first_tie {p q : List α} {t : α}
    (hindex : (p ++ t :: q).Pairwise fun a b ↦ index a < index b)
    (hp : ∀ b ∈ p, score b ≠ score t) (hb : b ∈ p ++ t :: q) (hscore : score b = score t)
    (hne : b ≠ t) : index t < index b := by
  rcases List.mem_append.1 hb with hb | hb
  · exact absurd hscore (hp b hb)
  · rcases List.mem_cons.1 hb with rfl | hb
    · exact absurd rfl hne
    · exact (List.pairwise_cons.1 (List.pairwise_append.1 hindex).2.1).1 b hb

/-- It is among the first when fewer than `n` elements are better. -/
theorem isFirst_of_first_tie {p q : List α} {t : α}
    (hindex : (p ++ t :: q).Pairwise fun a b ↦ index a < index b)
    (hp : ∀ b ∈ p, score b ≠ score t)
    (hlt : ((p ++ t :: q).countP fun b ↦ score t < score b) < n) :
    IsFirst score index n (p ++ t :: q) t := by
  refine ⟨List.mem_append_right _ List.mem_cons_self, lt_of_le_of_lt ?_ hlt⟩
  refine List.countP_mono_left fun b hb hahead ↦ decide_eq_true ?_
  rcases of_decide_eq_true hahead with hgt | ⟨heq, hlt⟩
  · exact hgt
  · have hne : b ≠ t := fun hbt ↦ lt_irrefl _ (hbt ▸ hlt : index t < index t)
    exact absurd hlt (index_lt_of_first_tie hindex hp hb heq hne).asymm

namespace Split

variable (h : Split score index n as heap left)

include h

/-- The first are kept, unless one of them is overtaken. -/
theorem mem_of_isFirst (hindex : as.Pairwise fun a b ↦ index a < index b)
    (hno : ¬Overtaken score n as) (hfirst : IsFirst score index n as a) : a ∈ heap := by
  refine (h.mem_iff.1 hfirst.1).resolve_right fun hleft ↦ ?_
  rcases h.gone a hleft with hlate | hpassed
  · exact hlate.not_isFirst hindex hfirst
  · exact hno ⟨a, hpassed, countP_lt_le.trans_lt hfirst.2⟩

/-- What reaches a score `n` times keeps nothing below it. -/
theorem le_of_le_countP {s : R} (hcount : n ≤ as.countP fun b ↦ s ≤ score b) (ha : a ∈ heap) :
    s ≤ score a := by
  by_contra! hlt
  have hleft : (left.countP fun b ↦ s ≤ score b) = 0 := by
    refine List.countP_eq_zero.2 fun b hb hge ↦ ?_
    exact absurd (h.le b hb a ha) (not_le.2 (hlt.trans_le (of_decide_eq_true hge)))
  have hheap : (heap.countP fun b ↦ s ≤ score b) < heap.length := by
    refine List.countP_lt_length_iff.2 ⟨a, ha, ?_⟩
    simpa using hlt
  have hle := h.length_le
  rw [h.countP_eq, hleft] at hcount
  omega

theorem nodup (hindex : as.Pairwise fun a b ↦ index a < index b) : (heap ++ left).Nodup :=
  h.perm.nodup_iff.2 (nodup_of_index hindex)

end Split

/-- An element that is overtaken is lost, though it may be among the first. -/
theorem exists_isFirst_notMem (hindex : as.Pairwise fun a b ↦ index a < index b)
    (hrun : offerAll score index n [] as = some heap) (hover : Overtaken score n as) :
    ∃ t, IsFirst score index n as t ∧ t ∉ heap := by
  obtain ⟨a, ⟨p, e, q, rfl, ha, hlt, hcount⟩, hbetter⟩ := hover
  obtain ⟨p₁, t, p₂, rfl, ht, hp₁⟩ := exists_first_tie score ha
  simp only [← ht] at hlt hcount hbetter hp₁
  have happend : p₁ ++ t :: p₂ ++ e :: q = p₁ ++ t :: (p₂ ++ e :: q) := by simp
  have hfirst : IsFirst score index n (p₁ ++ t :: p₂ ++ e :: q) t := by
    rw [happend] at hindex hbetter ⊢
    exact isFirst_of_first_tie hindex hp₁ hbetter
  refine ⟨t, hfirst, ?_⟩
  -- the heap before the better element, and after it
  rw [offerAll_append] at hrun
  obtain ⟨heap₀, hrun₀, hrun⟩ := Option.bind_eq_some_iff.1 hrun
  rw [offerAll_cons] at hrun
  obtain ⟨heap₁, hoffer, hrun⟩ := Option.bind_eq_some_iff.1 hrun
  obtain ⟨left₀, hsplit₀⟩ := split_offerAll hrun₀
  obtain ⟨left₁, hsplit₁, hsub₁⟩ := hsplit₀.offer hoffer
  obtain ⟨left', hsplit', hsub'⟩ := hsplit₁.offerAll hrun
  have hwhole : p₁ ++ t :: p₂ ++ [e] ++ q = p₁ ++ t :: p₂ ++ e :: q := by simp
  rw [hwhole] at hsplit'
  have hsub : List.Sublist (p₁ ++ t :: p₂) (p₁ ++ t :: p₂ ++ e :: q) := List.sublist_append_left _ _
  have hindex₀ := hindex.sublist hsub
  have hte : t ≠ e := fun heq ↦ lt_irrefl _ (heq ▸ hlt : score e < score e)
  have hmem : t ∈ p₁ ++ t :: p₂ := List.mem_append_right _ List.mem_cons_self
  -- it is left out at this point
  have hleft : t ∈ left₁ := by
    rcases hsplit₀.mem_iff.1 hmem with hheap | hleft
    · obtain ⟨hroom, -⟩ | ⟨top, rest, rfl, hfull, hcase⟩ := offer_cases hoffer
      · have hlen := hsplit₀.length
        have hle := List.countP_le_length
          (p := fun b ↦ decide (score t ≤ score b)) (l := p₁ ++ t :: p₂)
        omega
      · have htop : top = t := by
          by_contra hne
          have hkey : popKey score index top ≤ popKey score index t := by
            have hrest := (List.mem_cons.1 hheap).resolve_left (Ne.symm hne)
            exact (List.pairwise_cons.1 hsplit₀.sorted).1 t hrest
          have hge := hsplit₀.le_of_le_countP hcount List.mem_cons_self
          have heq : score top = score t := le_antisymm (score_le_of_popKey_le hkey) hge
          have hidx := index_lt_of_first_tie hindex₀ hp₁
            (hsplit₀.mem_iff.2 (Or.inl List.mem_cons_self)) heq hne
          rcases (Prod.Lex.toLex_le_toLex).1 hkey with hlt' | ⟨-, hle⟩
          · exact hlt'.ne heq
          · exact absurd hidx (not_lt.2 hle)
        subst htop
        obtain ⟨-, rfl⟩ := hcase.resolve_right fun hstay ↦ absurd hlt (not_lt.2 hstay.1)
        refine (hsplit₁.mem_iff.1 (List.mem_append_left _ hmem)).resolve_left fun hin ↦ ?_
        have hrest := (mem_push.1 hin).resolve_left hte
        have hnodup := (List.nodup_append.1 (hsplit₀.nodup hindex₀)).1
        exact (List.nodup_cons.1 hnodup).1 hrest
    · exact hsub₁ t hleft
  intro hheap
  exact (List.nodup_append.1 (hsplit'.nodup hindex)).2.2 t hheap t (hsub' t hleft) rfl

/-- **Which of equal scores are kept**: those that come first, exactly if the score of the last of
them was not reached `n` times before a better element came. -/
theorem mem_iff_isFirst (hindex : as.Pairwise fun a b ↦ index a < index b)
    (hrun : offerAll score index n [] as = some heap) :
    (∀ a, a ∈ heap ↔ IsFirst score index n as a) ↔ ¬Overtaken score n as := by
  constructor
  · intro hmem hover
    obtain ⟨t, hfirst, ht⟩ := exists_isFirst_notMem hindex hrun hover
    exact ht ((hmem t).2 hfirst)
  · intro hno a
    obtain ⟨left, hsplit⟩ := split_offerAll hrun
    have hfirst : ∀ b, IsFirst score index n as b → b ∈ heap := fun b ↦
      hsplit.mem_of_isFirst hindex hno
    exact ⟨isFirst_of_mem (nodup_of_index hindex) hsplit.length_le
      (fun b hb ↦ hsplit.mem_iff.2 (Or.inl hb)) hfirst, hfirst a⟩

/-! ### The best of what was kept -/

section Sorted

variable {k : ℕ} {l : List α} (h : Split score index n as heap left) (hl : l.Perm heap)

include h hl

/-- As many as the best `k` of the heap, by some order that only looks at the scores, are the
first of the stream if the `k`-th score is not that of others too. -/
theorem mem_take_iff_isFirst (hindex : as.Pairwise fun a b ↦ index a < index b)
    (hsorted : l.Pairwise fun a b ↦ score b ≤ score a) (hk : k ≤ n)
    (hno : ¬Straddles score k as) :
    a ∈ l.take k ↔ IsFirst score index k as a := by
  have hfirst : ∀ b, IsFirst score index k as b → b ∈ l.take k := by
    intro b hb
    by_contra hout
    -- `k` elements besides `b` are at least as good
    have hcount : k < as.countP fun c ↦ score b ≤ score c := by
      rw [h.countP_eq]
      rcases h.mem_iff.1 hb.1 with hheap | hleft
      · have hdrop : b ∈ l.drop k := by
          have hmem := hl.mem_iff.2 hheap
          rw [← List.take_append_drop k l] at hmem
          exact (List.mem_append.1 hmem).resolve_left hout
        have htake : (l.take k).countP (fun c ↦ decide (score b ≤ score c)) =
            (l.take k).length := by
          refine List.countP_eq_length.2 fun c hc ↦ decide_eq_true ?_
          rw [← List.take_append_drop k l] at hsorted
          exact (List.pairwise_append.1 hsorted).2.2 c hc b hdrop
        have hrest : 0 < (l.drop k).countP fun c ↦ score b ≤ score c :=
          List.countP_pos_iff.2 ⟨b, hdrop, decide_eq_true le_rfl⟩
        have hlen : (l.take k).length = k := by
          have hpos := List.length_pos_of_mem hdrop
          rw [List.length_drop] at hpos
          rw [List.length_take]
          omega
        rw [← hl.countP_eq, ← List.take_append_drop k l, List.countP_append]
        omega
      · have hheap : (heap.countP fun c ↦ score b ≤ score c) = heap.length :=
          List.countP_eq_length.2 fun c hc ↦ decide_eq_true (h.le b hleft c hc)
        have hrest : 0 < left.countP fun c ↦ score b ≤ score c :=
          List.countP_pos_iff.2 ⟨b, hleft, decide_eq_true le_rfl⟩
        have hfull := h.full (List.ne_nil_of_mem hleft)
        omega
    exact hno ⟨b, hb.1, countP_lt_le.trans_lt hb.2, hcount⟩
  refine ⟨isFirst_of_mem (nodup_of_index hindex) (List.length_take_le _ _) (fun b hb ↦ ?_) hfirst,
    hfirst a⟩
  exact h.mem_iff.2 (Or.inl (hl.mem_iff.1 (List.mem_of_mem_take hb)))

end Sorted

/-- If it is, then the reverse of the popping order, which sorts by score, leaves one of the first
out. -/
theorem exists_isFirst_notMem_reverse {k : ℕ} (h : Split score index n as heap left)
    (hindex : as.Pairwise fun a b ↦ index a < index b) (hk : k < n)
    (hstraddles : Straddles score k as) :
    ∃ t, IsFirst score index k as t ∧ t ∉ heap.reverse.take k := by
  obtain ⟨a, ha, hbetter, hcount⟩ := hstraddles
  obtain ⟨p, t, q, rfl, ht, hp⟩ := exists_first_tie score ha
  simp only [← ht] at hbetter hcount hp
  refine ⟨t, isFirst_of_first_tie hindex hp hbetter, fun htake ↦ ?_⟩
  have hheap : k < heap.countP fun b ↦ score t ≤ score b := by
    by_cases hleft : ∃ b ∈ left, score t ≤ score b
    · obtain ⟨b, hb, hge⟩ := hleft
      have hall : (heap.countP fun b ↦ score t ≤ score b) = heap.length :=
        List.countP_eq_length.2 fun c hc ↦ decide_eq_true (hge.trans (h.le b hb c hc))
      rw [hall, h.full (List.ne_nil_of_mem hb)]
      exact hk
    · have hnone : (left.countP fun b ↦ score t ≤ score b) = 0 :=
        List.countP_eq_zero.2 fun b hb hge ↦ hleft ⟨b, hb, of_decide_eq_true hge⟩
      rwa [h.countP_eq, hnone] at hcount
  obtain ⟨u, v, huv⟩ := List.append_of_mem htake
  have hu : u.length < k := by
    have hlen := List.length_take_le k heap.reverse
    rw [huv, List.length_append, List.length_cons] at hlen
    omega
  have hrev : heap.reverse = u ++ t :: (v ++ heap.reverse.drop k) := by
    rw [← List.cons_append, ← List.append_assoc, ← huv, List.take_append_drop]
  generalize v ++ heap.reverse.drop k = w at hrev
  -- nothing after it is as good as it
  have hw : (w.countP fun b ↦ score t ≤ score b) = 0 := by
    refine List.countP_eq_zero.2 fun b hb hge ↦ ?_
    have hsorted : heap.reverse.Pairwise fun a b ↦ popKey score index b ≤ popKey score index a :=
      List.pairwise_reverse.2 h.sorted
    have hnodup : heap.reverse.Nodup :=
      List.nodup_reverse.2 (List.nodup_append.1 (h.nodup hindex)).1
    rw [hrev] at hsorted hnodup
    have hkey := (List.pairwise_cons.1 (List.pairwise_append.1 hsorted).2.1).1 b hb
    have hne : b ≠ t := fun heq ↦
      (List.nodup_cons.1 (List.nodup_append.1 hnodup).2.1).1 (heq ▸ hb)
    have heq : score b = score t :=
      le_antisymm (score_le_of_popKey_le hkey) (of_decide_eq_true hge)
    have hmem : b ∈ heap := by
      rw [← List.mem_reverse, hrev]
      exact List.mem_append_right _ (List.mem_cons_of_mem _ hb)
    have hidx := index_lt_of_first_tie hindex hp (h.mem_iff.2 (Or.inl hmem)) heq hne
    rcases (Prod.Lex.toLex_le_toLex).1 hkey with hlt | ⟨-, hle⟩
    · exact hlt.ne heq
    · exact absurd hidx (not_lt.2 hle)
  have htotal : (heap.countP fun b ↦ score t ≤ score b) ≤ u.length + 1 := by
    have hcu := List.countP_le_length (p := fun b ↦ decide (score t ≤ score b)) (l := u)
    rw [← heap.reverse_reverse, List.countP_reverse, hrev, List.countP_append, List.countP_cons, hw]
    split_ifs <;> omega
  omega

end Spp.TopK
