import FriBound.Proofs.Coverage
import FriBound.Proofs.Monotone

/-!
# The order of the folding rounds

The arities of a schedule enter the bound by a sum of powers of two, which is formed from left to
right. Rounded sums depend on their order, and this one does: next to `2 ^ 54` a two is lost, and
many of them are not lost if they come first (`scatteredCode`).

A sum of powers of two is exact as long as its digits fit into a number. The partial sums of arities
that are not below `b` are multiples of `2 ^ b`, so it is enough that the whole sum has at most 53
digits above `b` (`Gathered`). Then the order does not matter, whether the sum is in range or not,
and the same holds for the evaluation in logarithms, which sums the same powers divided by the
largest of them. Nor does it matter if a single power of two is out of range, since then the sum is.

## Main definitions

* `Gathered` — arities that are close enough together
* `scatteredCode` — arities that are not

## Main results

* `Binary64.place_foldl_add` — an exact sum
* `Elementary.arity_order` — the order of the arities does not matter
-/

namespace FriBound

namespace Binary64

variable {x y : Binary64}

/-! ### Exact sums -/

/-- Apart from the two zeros, a number is known by its place. -/
theorem eq_of_place {a : Int} (hx : x.place = some a) (hy : y.place = some a) (ha : a ≠ 0) :
    x = y := by
  rcases Nat.lt_or_ge a.natAbs unitLimit with hlt | hge
  · obtain ⟨s, m, rfl⟩ := exists_fin (isFinite_iff_place.mpr ⟨a, hx, hlt⟩)
    obtain ⟨t, k, rfl⟩ := exists_fin (isFinite_iff_place.mpr ⟨a, hy, hlt⟩)
    rw [place_fin, Option.some.injEq] at hx hy
    have hunits : m.units = k.units := by
      rw [← natAbs_signed s m, ← natAbs_signed t k, hx, hy]
    obtain rfl : m = k := Magnitude.ext hunits
    cases s <;> cases t <;> simp only [signed, if_true, Bool.false_eq_true, if_false] at hx hy <;>
      first | rfl | omega
  · rw [eq_inf_of_place hx hge, eq_inf_of_place hy hge]

/-- The sum of two numbers of units is exact if it has 53 digits, up to the end of the range. -/
theorem place_add_of_short {A B : Nat} (hx : x.place = some ((min A unitLimit : Nat) : Int))
    (hy : y.place = some ((min B unitLimit : Nat) : Int)) (h : Short (A + B)) :
    (x + y).place = some ((min (A + B) unitLimit : Nat) : Int) := by
  have hinf : ∀ {z : Binary64} {C : Nat}, z.place = some ((min C unitLimit : Nat) : Int) →
      unitLimit ≤ C → z = inf false := by
    intro z C hz hC
    rw [Nat.min_eq_right hC] at hz
    have hlarge := eq_inf_of_place hz (Nat.le_of_eq (Int.natAbs_natCast _).symm)
    rwa [decide_eq_false (by omega)] at hlarge
  have hfin : ∀ {z : Binary64} {C : Nat}, z.place = some ((min C unitLimit : Nat) : Int) →
      C < unitLimit → z.isFinite = true := by
    intro z C hz hC
    refine isFinite_iff_place.mpr ⟨_, hz, ?_⟩
    rwa [Int.natAbs_natCast, Nat.min_eq_left (Nat.le_of_lt hC)]
  have hplace : (inf false).place = some (unitLimit : Int) := rfl
  rcases Nat.lt_or_ge A unitLimit with hA | hA
  · rcases Nat.lt_or_ge B unitLimit with hB | hB
    · have hround := roundShort_of_short h Nat.one_pos
      rw [Nat.mul_one] at hround
      rw [place_add (hfin hx hA) (hfin hy hB) hx hy, ← Int.natCast_add, roundPlace_natCast,
        Nat.min_eq_left (Nat.le_of_lt hA), Nat.min_eq_left (Nat.le_of_lt hB), hround]
    · rw [hinf hy hB, add_inf false (hfin hx hA), Nat.min_eq_right (by omega), hplace]
  · have hsum : inf false + y = inf false := by
      rcases Nat.lt_or_ge B unitLimit with hB | hB
      · exact inf_add false (hfin hy hB)
      · rw [hinf hy hB]
        rfl
    rw [hinf hx hA, hsum, Nat.min_eq_right (by omega), hplace]

/-- **A sum of powers of two that is exact.** All exponents are at least `c`, and the sum has at
most 53 digits above that. -/
theorem place_foldl_add {ι : Type} {f : ι → Binary64} {e : ι → Nat} {c K : Nat} {l : List ι}
    (hx : x.place = some ((min (K * 2 ^ c) unitLimit : Nat) : Int))
    (hf : ∀ i ∈ l, (f i).place = some ((min (2 ^ e i) unitLimit : Nat) : Int) ∧ c ≤ e i)
    (hsum : K + (l.map fun i => 2 ^ (e i - c)).sum ≤ 2 ^ 53) :
    ((l.map f).foldl (· + ·) x).place
      = some ((min ((K + (l.map fun i => 2 ^ (e i - c)).sum) * 2 ^ c) unitLimit : Nat) : Int) := by
  induction l generalizing x K with
  | nil => simpa using hx
  | cons i l ih =>
    obtain ⟨⟨hi, hc⟩, hf⟩ := List.forall_mem_cons.mp hf
    rw [List.map_cons, List.sum_cons, ← Nat.add_assoc] at hsum
    rw [List.map_cons, List.map_cons, List.sum_cons, List.foldl_cons, ← Nat.add_assoc]
    have hpower : 2 ^ e i = 2 ^ (e i - c) * 2 ^ c := by
      rw [← Nat.pow_add, Nat.sub_add_cancel hc]
    rw [hpower] at hi
    have hstep := place_add_of_short hx hi (by
      rw [← Nat.add_mul]
      exact ⟨_, c, by omega, rfl⟩)
    rw [← Nat.add_mul] at hstep
    exact ih hstep hf hsum

/-- The place of a power of two, in range or above it. -/
theorem place_twoPow_min {n : Int} (h : -1074 ≤ n) :
    (twoPow n).place = some ((min (2 ^ (n + places).toNat) unitLimit : Nat) : Int) := by
  rcases Int.lt_or_le 1023 n with hhigh | hhigh
  · have hle : unitLimit ≤ 2 ^ (n + places).toNat := by
      rw [unitLimit_eq]
      exact Nat.pow_le_pow_right Nat.two_pos (by unfold places topDigits; omega)
    rw [twoPow_of_large (by omega), Nat.min_eq_right hle]
    rfl
  · have hle : 2 ^ (n + places).toNat ≤ unitLimit := by
      rw [unitLimit_eq]
      exact Nat.pow_le_pow_right Nat.two_pos (by unfold places topDigits; omega)
    rw [place_twoPow h hhigh, Nat.min_eq_left hle]

/-- A difference of whole numbers that are held exactly. -/
theorem ofInt_sub_ofInt {n k : Int} (hn : n.natAbs ≤ 2 ^ 53) (hk : k.natAbs ≤ 2 ^ 53)
    (hnk : (n - k).natAbs ≤ 2 ^ 53) : ofInt n - ofInt k = ofInt (n - k) := by
  have hfin : ∀ {i : Int}, i.natAbs ≤ 2 ^ 53 → (ofInt i).isFinite = true := by
    intro i hi
    obtain ⟨m, hm, -⟩ := ofInt_eq_fin hi
    rw [hm]
    rfl
  rcases eq_or_ne n k with rfl | hne
  · rw [sub_self (hfin hn), Int.sub_self, ofInt_zero]
  · have hplace := place_sub (hfin hn) (hfin hk) (place_ofInt_of_short hn) (place_ofInt_of_short hk)
    have hdiff := place_ofInt_of_short hnk
    have hround := roundPlace_place hdiff Nat.one_pos
    rw [Int.natCast_one, Int.mul_one] at hround
    rw [← Int.sub_mul, hround] at hplace
    refine eq_of_place hplace hdiff (Int.mul_ne_zero (by omega) ?_)
    exact Int.natCast_ne_zero.mpr (Nat.ne_of_gt unitsPerOne_pos)

end Binary64

/-! ### Arities that are close together -/

/-- There is a number of bits that no arity is below, and above that the sum of the powers has at
most 53 digits. The arities themselves are exact numbers. -/
def Gathered (as : List UInt64) : Prop :=
  ∃ b : Nat, (∀ a ∈ as, b ≤ a.toNat ∧ a.toNat ≤ 2 ^ 53) ∧
    (as.map fun a => 2 ^ (a.toNat - b)).sum ≤ 2 ^ 53

namespace Gathered

open Binary64 Elementary

variable {E : Elementary} {as as' : List UInt64}

theorem perm (h : Gathered as) (hp : as'.Perm as) : Gathered as' := by
  obtain ⟨b, hb, hsum⟩ := h
  exact ⟨b, fun a ha => hb a (hp.mem_iff.mp ha), (hp.map _).sum_nat ▸ hsum⟩

/-- A member is at most 53 bits above the base. -/
theorem le_add_of_mem {b : Nat} (hsum : (as.map fun a => 2 ^ (a.toNat - b)).sum ≤ 2 ^ 53)
    {a : UInt64} (ha : a ∈ as) : a.toNat - b ≤ 53 := by
  have hmem : 2 ^ (a.toNat - b) ≤ (as.map fun a => 2 ^ (a.toNat - b)).sum :=
    List.le_sum_of_mem (List.mem_map.mpr ⟨a, ha, rfl⟩)
  exact (Nat.pow_le_pow_iff_right Nat.one_lt_two).mp (Nat.le_trans hmem hsum)

/-- The sum of the powers, divided by a power that is not above their sum. -/
theorem place_foldl_twoPow {b : Nat} (hb : ∀ a ∈ as, b ≤ a.toNat)
    (hsum : (as.map fun a => 2 ^ (a.toNat - b)).sum ≤ 2 ^ 53) {d : Int} (hd : d ≤ b + 53) :
    ((as.map fun a => twoPow (a.toNat - d)).foldl (· + ·) (-ofInt 0)).place
      = some ((min ((as.map fun a => 2 ^ (a.toNat - b)).sum * 2 ^ (b - d + places : Int).toNat)
          unitLimit : Nat) : Int) := by
  have hstart : (-ofInt 0).place
      = some ((min (0 * 2 ^ (b - d + places : Int).toNat) unitLimit : Nat) : Int) := by
    rw [ofInt_zero, Nat.zero_mul, Nat.zero_min]
    rfl
  have hexponents : (as.map fun a =>
      2 ^ ((a.toNat - d + places : Int).toNat - (b - d + places : Int).toNat))
        = as.map fun a => 2 ^ (a.toNat - b) := by
    refine List.map_congr_left fun a ha => congrArg (2 ^ ·) ?_
    have := hb a ha
    unfold places
    omega
  have hfold := place_foldl_add (l := as) (f := fun a => twoPow (a.toNat - d))
    (e := fun a => (a.toNat - d + places : Int).toNat) hstart ?_ ?_
  · rw [hexponents, Nat.zero_add] at hfold
    exact hfold
  · intro a ha
    have := hb a ha
    exact ⟨place_twoPow_min (by omega), by omega⟩
  · rwa [hexponents, Nat.zero_add]

/-- **The order of the powers does not matter.** The powers may be divided by one of them. -/
theorem foldl_twoPow_perm (h : Gathered as) (hp : as'.Perm as) {d : Int}
    (hd : d ≤ 0 ∨ ∃ a ∈ as, d = a.toNat) :
    (as'.map fun a => twoPow (a.toNat - d)).foldl (· + ·) (-ofInt 0)
      = (as.map fun a => twoPow (a.toNat - d)).foldl (· + ·) (-ofInt 0) := by
  rcases eq_or_ne as [] with rfl | hne
  · rw [hp.eq_nil]
  obtain ⟨b, hb, hsum⟩ := h
  have hd' : d ≤ b + 53 := by
    rcases hd with hd | ⟨a, ha, rfl⟩
    · omega
    · have := le_add_of_mem hsum ha
      omega
  have hsame : (as'.map fun a => 2 ^ (a.toNat - b)).sum = (as.map fun a => 2 ^ (a.toNat - b)).sum :=
    (hp.map _).sum_nat
  have hplace := place_foldl_twoPow (fun a ha => (hb a ha).1) hsum hd'
  have hplace' := place_foldl_twoPow (fun a ha => (hb a (hp.mem_iff.mp ha)).1) (hsame.trans_le hsum)
    hd'
  rw [hsame] at hplace'
  refine eq_of_place hplace' hplace (Int.natCast_ne_zero.mpr ?_)
  obtain ⟨a, ha⟩ := List.exists_mem_of_ne_nil as hne
  have hpos : 0 < (as.map fun a => 2 ^ (a.toNat - b)).sum :=
    Nat.lt_of_lt_of_le (Nat.two_pow_pos _) (List.le_sum_of_mem (List.mem_map.mpr ⟨a, ha, rfl⟩))
  have hpos' := Nat.mul_pos hpos (Nat.two_pow_pos (b - d + places : Int).toNat)
  have hlimit := unitLimit_pos
  omega

/-! ### Logarithms of sums -/

/-- The largest arity. -/
theorem exists_largest (h : Gathered as) (hne : as ≠ []) :
    ∃ a ∈ as, (as.map fun a => ofInt a.toNat).foldl larger (inf true) = ofInt a.toNat ∧
      ∀ a' ∈ as, a'.toNat ≤ a.toNat := by
  obtain ⟨b, hb, -⟩ := h
  have hfin : ∀ x ∈ as.map fun a => ofInt (a.toNat : Int), x.isFinite = true := by
    intro x hx
    obtain ⟨a, -, rfl⟩ := List.mem_map.mp hx
    exact isFinite_ofInt_of_lt a.toNat_lt
  obtain ⟨a, ha⟩ := List.exists_mem_of_ne_nil as hne
  obtain ⟨t, ht, heq, -, hall⟩ := Elementary.exists_largest
    (fun x hx hinf => by simpa [hinf, Binary64.isFinite] using hfin x hx)
    ⟨ofInt a.toNat, List.mem_map.mpr ⟨a, ha, rfl⟩, isFinite_ofInt_of_lt a.toNat_lt⟩
  obtain ⟨c, hc, rfl⟩ := List.mem_map.mp ht
  refine ⟨c, hc, heq, ?_⟩
  intro a' ha'
  have hle := hall _ (List.mem_map.mpr ⟨a', ha', rfl⟩)
    (ne_nan_of_isFinite (isFinite_ofInt_of_lt a'.toNat_lt))
  by_contra hlt
  have hgt : (ofInt c.toNat).lt (ofInt a'.toNat) = true := by
    have hc53 := (hb c hc).2
    have ha53 := (hb a' ha').2
    rw [ofInt_lt_ofInt (by omega) (by omega)]
    exact decide_eq_true (by omega)
  rw [not_lt_of_le hle] at hgt
  exact Bool.false_ne_true hgt

/-- What is summed once the largest is taken out. -/
theorem powerSum_eq (h : Gathered as) (hexp : E.ExpLaws) {m : UInt64} (hm : m ∈ as) :
    E.powerSum (ofInt m.toNat) (as.map fun a => ofInt a.toNat)
      = (as.map fun a => twoPow (a.toNat - m.toNat)).foldl (· + ·) (-ofInt 0) := by
  obtain ⟨b, hb, -⟩ := h
  rw [powerSum, List.map_map]
  refine congrArg (List.foldl _ _) (List.map_congr_left fun a ha => ?_)
  have ha53 := (hb a ha).2
  have hm53 := (hb m hm).2
  show E.exp2 (ofInt a.toNat - ofInt m.toNat) = _
  rw [ofInt_sub_ofInt (by omega) (by omega) (by omega), hexp.eq_twoPow]

/-- The logarithm of the sum does not depend on the order either: the largest arity is the same, and
so is the sum of the powers divided by the largest. -/
theorem logSum_perm (h : Gathered as) (hp : as'.Perm as) (hexp : E.ExpLaws) :
    E.logSum (as'.map fun a => ofInt a.toNat) = E.logSum (as.map fun a => ofInt a.toNat) := by
  rcases eq_or_ne as [] with rfl | hne
  · rw [hp.eq_nil]
  have hne' : as' ≠ [] := fun hnil => hne (by rwa [hnil, List.nil_perm] at hp)
  have h' := h.perm hp
  obtain ⟨m, hm, hlargest, hall⟩ := h.exists_largest hne
  obtain ⟨m', hm', hlargest', hall'⟩ := h'.exists_largest hne'
  have hmm : m' = m := UInt64.toNat_inj.mp
    (Nat.le_antisymm (hall m' (hp.mem_iff.mp hm')) (hall' m (hp.mem_iff.mpr hm)))
  subst hmm
  have hfin := isFinite_ofInt_of_lt m'.toNat_lt
  rw [logSum_of_isFinite hlargest hfin, logSum_of_isFinite hlargest' hfin, h.powerSum_eq hexp hm,
    h'.powerSum_eq hexp hm', h.foldl_twoPow_perm hp (.inr ⟨m', hm, rfl⟩)]

end Gathered

/-! ### The evaluations -/

namespace Params

open Scalar

variable {α : Type} [Scalar α] {p : Params α} {as : List UInt64}

/-- The terms know the schedule by the sum of its powers. -/
theorem terms_arities (h : aritySum { p with arityBits := as } = p.aritySum) :
    terms { p with arityBits := as } = p.terms := by
  rw [terms, terms, termsAt, termsAt, h]
  rfl

theorem bound_congr {p' : Params α} (h : p'.terms = p.terms) : p'.bound = p.bound := by
  rw [bound, bound, h]

/-- The evaluation in logarithms knows it by the logarithm of that sum. -/
theorem logBound_arities
    (h : (log2SumExp2 (as.map fun a => ofInt a.toNat) : α)
      = log2SumExp2 (p.arityBits.map fun a => ofInt a.toNat)) :
    logBound { p with arityBits := as } = p.logBound := by
  have hterms : logTerms { p with arityBits := as } = p.logTerms := by
    rw [logTerms, logTerms, h]
    rfl
  rw [logBound, logBound, hterms]

theorem securityBits_congr {p' : Params α} (h : p'.logBound = p.logBound) :
    p'.securityBits = p.securityBits := by
  rw [securityBits, securityBits, h]

end Params

namespace Elementary

open Binary64

variable {E : Elementary} {p : Params Binary64} {as : List UInt64}

theorem aritySum_perm (hexp : E.ExpLaws) (h : Gathered p.arityBits) (hp : as.Perm p.arityBits) :
    E.aritySum { p with arityBits := as } = E.aritySum p := by
  have hsizes : ∀ bs : List UInt64, (bs.map fun a => E.size a.toNat)
      = bs.map fun a => twoPow (a.toNat - 0) := by
    intro bs
    refine List.map_congr_left fun a _ => ?_
    rw [size, hexp.eq_twoPow, Int.sub_zero]
  rw [aritySum_formula, aritySum_formula, hsizes, hsizes]
  exact h.foldl_twoPow_perm hp (.inl (Int.le_refl 0))

/-- An arity whose power of two is infinite makes the sum infinite, wherever it stands. -/
theorem WholeExpLaws.aritySum_eq_inf (hexp : E.WholeExpLaws) {a : UInt64} (ha : a ∈ p.arityBits)
    (hlarge : 1024 ≤ a.toNat) : E.aritySum p = inf false := by
  have hsize : E.size a.toNat = inf false := hexp.exp2_large _ (by omega)
  rw [aritySum_formula]
  exact foldl_add_eq_inf zero_le_neg_zero (sizes_nonneg hexp.nonneg _)
    (.inr (List.mem_map.mpr ⟨a, ha, hsize⟩))

theorem aritySum_eq_inf (hexp : E.ExpLaws) {a : UInt64} (ha : a ∈ p.arityBits)
    (hlarge : 1024 ≤ a.toNat) : E.aritySum p = inf false :=
  hexp.wholeExpLaws.aritySum_eq_inf ha hlarge

/-- **The order of the folding rounds.** In any order, terms that exist differ in the folding error
at most. An arity that is out of range is refused at any place. If the arities are close enough
together, the order does not matter at all: all evaluations end in the same way, with the same
numbers. -/
theorem arity_order (hexp : E.ExpLaws) (hp : as.Perm p.arityBits) :
    (∀ t t', E.terms p = .ok t → E.terms { p with arityBits := as } = .ok t' →
      t'.rate = t.rate ∧ t'.alpha = t.alpha ∧ t'.proximity = t.proximity ∧ t'.query = t.query) ∧
    ((∃ a ∈ p.arityBits, 1024 ≤ a.toNat) →
      E.terms { p with arityBits := as } = E.terms p ∧
      E.bound { p with arityBits := as } = E.bound p) ∧
    (Gathered p.arityBits →
      E.terms { p with arityBits := as } = E.terms p ∧
      E.bound { p with arityBits := as } = E.bound p ∧
      E.logBound { p with arityBits := as } = E.logBound p ∧
      E.securityBits { p with arityBits := as } = E.securityBits p) := by
  have hsame : E.aritySum { p with arityBits := as } = E.aritySum p →
      E.terms { p with arityBits := as } = E.terms p ∧
        E.bound { p with arityBits := as } = E.bound p := by
    intro hsum
    have hterms := @Params.terms_arities _ E.scalar p as hsum
    exact ⟨hterms, @Params.bound_congr _ E.scalar _ _ hterms⟩
  refine ⟨?_, ?_, ?_⟩
  · intro t t' ht ht'
    obtain ⟨-, -, -, rfl⟩ := terms_eq_ok_iff_guarded.mp ht
    obtain ⟨-, -, -, rfl⟩ := terms_eq_ok_iff_guarded.mp ht'
    exact ⟨rfl, rfl, rfl, rfl⟩
  · rintro ⟨a, ha, hlarge⟩
    refine hsame ?_
    rw [aritySum_eq_inf hexp ha hlarge, aritySum_eq_inf hexp (hp.mem_iff.mpr ha) hlarge]
  · intro h
    obtain ⟨hterms, hbound⟩ := hsame (aritySum_perm hexp h hp)
    have hlog : E.logBound { p with arityBits := as } = E.logBound p :=
      @Params.logBound_arities _ E.scalar p as (h.logSum_perm hp hexp)
    exact ⟨hterms, hbound, hlog,
      @Params.securityBits_congr _ E.scalar _ _ hlog⟩

theorem arity_order_quarterCode :
    Gathered quarterCode.arityBits ∧ ∃ t, whole.terms quarterCode = .ok t ∧
      whole.terms { quarterCode with arityBits := [2, 1] } = .ok t := by
  have hgathered : Gathered quarterCode.arityBits :=
    ⟨1, by simp [quarterCode], by simp [quarterCode]⟩
  obtain ⟨-, -, hsame⟩ := arity_order (p := quarterCode) expLaws_whole (List.Perm.swap 1 2 [])
  exact ⟨hgathered, _, terms_quarterCode, (hsame hgathered).1.trans terms_quarterCode⟩

/-! ### Arities that are far apart -/

/-- A code with one very wide folding round before many narrow ones. -/
def scatteredCode : Params Binary64 :=
  { quarterCode with fieldSizeBits := 64, arityBits := 54 :: List.replicate 32 1, numRounds := 33 }

/-- The same rounds, the wide one last. -/
def wideLast : List UInt64 := List.replicate 32 1 ++ [54]

/-- The sums of the arities. With the wide round first, the narrow ones are lost one by one. -/
theorem aritySum_scatteredCode :
    tabulated.aritySum scatteredCode = ofInt (2 ^ 54) ∧
      tabulated.aritySum { scatteredCode with arityBits := wideLast } = ofInt (2 ^ 54 + 64) := by
  decide +kernel

/-- And their logarithms. -/
theorem logSum_scatteredCode :
    tabulated.logSum (scatteredCode.arityBits.map fun a => ofInt a.toNat) = ofInt 54 ∧
      tabulated.logSum (wideLast.map fun a => ofInt a.toNat) = ofBits 0x404b000000000001 := by
  decide +kernel

/-- The terms differ in the folding error alone. -/
theorem values_scatteredCode :
    (tabulated.values scatteredCode).proximity = ofBits 0x3cd1160000000000 ∧
      (tabulated.values scatteredCode).folding = ofBits 0x3fb9800000000000 ∧
      (tabulated.values { scatteredCode with arityBits := wideLast }).folding
        = ofBits 0x3fb980000000001a ∧
      (tabulated.values scatteredCode).query = ofBits 0x3fe2000000000000 := by
  obtain ⟨hsum, hsum'⟩ := aritySum_scatteredCode
  rw [folding_formula, folding_formula, hsum, hsum']
  decide +kernel

/-- And so do their logarithms. -/
theorem logTerms_scatteredCode :
    (tabulated.logTerms scatteredCode).proximity = ofBits 0xc048f3dfa4350e91 ∧
      (tabulated.logTerms scatteredCode).folding = ofBits 0xc00a9edf7659d8b0 ∧
      (tabulated.logTerms { scatteredCode with arityBits := wideLast }).folding
        = ofBits 0xc00a9edf7659d8a0 ∧
      (tabulated.logTerms scatteredCode).query = ofBits 0xbfea8ff971810a5e := by
  obtain ⟨hlog, hlog'⟩ := logSum_scatteredCode
  have hhead : tabulated.foldingHead scatteredCode = ofBits 0x401ab09044d313a6 := by decide +kernel
  have hhead' : tabulated.foldingHead { scatteredCode with arityBits := wideLast }
      = ofBits 0x401ab09044d313a6 := hhead
  rw [folding_eq, folding_eq, hlog, hlog', hhead, hhead']
  decide +kernel

theorem terms_scatteredCode :
    tabulated.terms scatteredCode = .ok (tabulated.values scatteredCode) ∧
      tabulated.terms { scatteredCode with arityBits := wideLast }
        = .ok (tabulated.values { scatteredCode with arityBits := wideLast }) := by
  have hm : ∀ s, scatteredCode.m ≠ zero s := by decide +kernel
  obtain ⟨hsum, hsum'⟩ := aritySum_scatteredCode
  obtain ⟨hproximity, hfolding, hfolding', hquery⟩ := values_scatteredCode
  obtain ⟨hsize, hsquare, hfield⟩ :
      (tabulated.size scatteredCode.codewordSizeBits.toInt).isFinite = true ∧
        (tabulated.size scatteredCode.codewordSquareBits).isFinite = true ∧
        (tabulated.size scatteredCode.fieldSizeBits.toInt).isFinite = true := by decide +kernel
  constructor
  · exact terms_eq_ok_iff_guarded.mpr ⟨isFinite_one, not_exists.mpr hm, guarded_iff.mpr
      ⟨hsize, hsquare, hfield, hsum ▸ isFinite_ofInt_of_lt (by decide), hproximity ▸ rfl,
        hfolding ▸ rfl, hquery ▸ rfl⟩, rfl⟩
  · exact terms_eq_ok_iff_guarded.mpr ⟨isFinite_one, not_exists.mpr hm, guarded_iff.mpr
      ⟨hsize, hsquare, hfield, hsum' ▸ isFinite_ofInt_of_lt (by decide), hproximity ▸ rfl,
        hfolding' ▸ rfl, hquery ▸ rfl⟩, rfl⟩

theorem logBound_scatteredCode :
    tabulated.logBound scatteredCode = .ok (tabulated.logTotal scatteredCode) ∧
      tabulated.logBound { scatteredCode with arityBits := wideLast }
        = .ok (tabulated.logTotal { scatteredCode with arityBits := wideLast }) := by
  obtain ⟨hterms, hterms'⟩ := terms_scatteredCode
  exact ⟨(logBound_eq_ok_iff_logTotal logLaws_tabulated).mpr ⟨isFinite_one, one_pos,
      not_logOverflow powSpecial_tabulated ⟨_, hterms⟩, rfl⟩,
    (logBound_eq_ok_iff_logTotal logLaws_tabulated).mpr ⟨isFinite_one, one_pos,
      not_logOverflow powSpecial_tabulated ⟨_, hterms'⟩, rfl⟩⟩

/-- With the wide round last, the folding error, the bound and its logarithm are larger. -/
theorem arity_order_scatteredCode :
    scatteredCode.validate = .ok () ∧ wideLast.Perm scatteredCode.arityBits ∧
      (∃ t t', tabulated.terms scatteredCode = .ok t ∧
        tabulated.terms { scatteredCode with arityBits := wideLast } = .ok t' ∧
        t.folding.lt t'.folding = true) ∧
      (∃ v v', tabulated.bound scatteredCode = .ok v ∧
        tabulated.bound { scatteredCode with arityBits := wideLast } = .ok v' ∧ v.lt v' = true) ∧
      ∃ l l', tabulated.logBound scatteredCode = .ok l ∧
        tabulated.logBound { scatteredCode with arityBits := wideLast } = .ok l' ∧
        l.lt l' = true := by
  have hvalid : scatteredCode.validate = .ok () :=
    Params.validate_eq_ok_iff.mpr ⟨by decide, by decide, by decide,
      ⟨isFinite_one, by decide +kernel⟩, by simp [scatteredCode], by simp [scatteredCode],
      by decide, by decide⟩
  obtain ⟨hterms, hterms'⟩ := terms_scatteredCode
  obtain ⟨hlogBound, hlogBound'⟩ := logBound_scatteredCode
  obtain ⟨hproximity, hfolding, hfolding', hquery⟩ := values_scatteredCode
  obtain ⟨hlogProximity, hlogFolding, hlogFolding', hlogQuery⟩ := logTerms_scatteredCode
  have htotal : (tabulated.values scatteredCode).proximity
      + (tabulated.values scatteredCode).folding
      + (tabulated.values scatteredCode).query = ofBits 0x3fe5300000000008 := by
    rw [hproximity, hfolding, hquery]
    decide +kernel
  have htotal' : (tabulated.values { scatteredCode with arityBits := wideLast }).proximity
      + (tabulated.values { scatteredCode with arityBits := wideLast }).folding
      + (tabulated.values { scatteredCode with arityBits := wideLast }).query
        = ofBits 0x3fe530000000000c := by
    rw [hfolding']
    show (tabulated.values scatteredCode).proximity + _ + (tabulated.values scatteredCode).query = _
    rw [hproximity, hquery]
    decide +kernel
  have hlogTotal : (tabulated.logTotal scatteredCode).lt
      (tabulated.logTotal { scatteredCode with arityBits := wideLast }) = true := by
    rw [logTotal_eq, logTotal_eq, hlogFolding, hlogFolding']
    show (tabulated.logSum [(tabulated.logTerms scatteredCode).proximity, _,
        (tabulated.logTerms scatteredCode).query]).lt
      (tabulated.logSum [(tabulated.logTerms scatteredCode).proximity, _,
        (tabulated.logTerms scatteredCode).query]) = true
    rw [hlogProximity, hlogQuery]
    decide +kernel
  refine ⟨hvalid, List.perm_append_singleton 54 _, ⟨_, _, hterms, hterms', ?_⟩,
    ⟨_, _, bound_eq_ok_iff_terms.mpr ⟨_, hterms, rfl, htotal ▸ rfl⟩,
      bound_eq_ok_iff_terms.mpr ⟨_, hterms', rfl, htotal' ▸ rfl⟩, ?_⟩,
    _, _, hlogBound, hlogBound', hlogTotal⟩
  · rw [hfolding, hfolding']
    decide +kernel
  · rw [htotal, htotal']
    decide +kernel

end Elementary

end FriBound
