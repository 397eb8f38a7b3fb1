import SignalGraph.Proofs.CanonicalText
import SignalGraph.Proofs.RegistrationOrder

/-!
# The texts of module ids

An id is written as 32 digits, and can be read from more texts than this one. `Spelling` says which:
digits in either case, leading zeros left out, the mark `0x` and a sign before them, white space
around them. An id is read from its spellings and from nothing else (`ofString?_eq_some`). Reading
takes the parts of a text away one by one from the outside, and for each of them there is a lemma
that says of what texts a given rest is left (`trim_eq_iff`, `dropMark_eq_iff`, `dropSign_eq_iff`).

Since all digits are written, the order of the texts is the order of the numbers
(`Hex.fixed_lt_fixed_iff`), in which a registry lists its modules.
-/

namespace SignalGraph

/-! ## White space -/

namespace Blank

variable {cs body before after : List Char}

theorem dropWhile_blanks_append (hb : ∀ c ∈ before, isBlank c = true)
    (hcs : ∀ c ∈ cs.head?, isBlank c = false) : (before ++ cs).dropWhile isBlank = cs := by
  rw [List.dropWhile_append_of_pos hb]
  cases cs with
  | nil => rfl
  | cons c cs => exact List.dropWhile_cons_of_neg (by simp [hcs c rfl])

theorem trim_surrounded (hb : ∀ c ∈ before, isBlank c = true) (ha : ∀ c ∈ after, isBlank c = true)
    (hbody : ∀ c ∈ body, isBlank c = false) : trim (before ++ body ++ after) = body := by
  cases body with
  | nil =>
    have hall : ∀ c ∈ before ++ [] ++ after, isBlank c = true := by
      simpa [or_imp, forall_and] using ⟨hb, ha⟩
    rw [trim, List.dropWhile_eq_nil_iff.2 hall]
    rfl
  | cons c body =>
    have hfront : (before ++ (c :: body ++ after)).dropWhile isBlank = c :: body ++ after :=
      dropWhile_blanks_append hb (by simp [hbody c List.mem_cons_self])
    have hback : (after.reverse ++ (c :: body).reverse).dropWhile isBlank = (c :: body).reverse :=
      dropWhile_blanks_append (by simpa using ha) fun d hd =>
        hbody d (List.mem_reverse.1 (List.mem_of_mem_head? hd))
    rw [trim, List.append_assoc, hfront, List.reverse_append, hback, List.reverse_reverse]

/-- A text without white space is left of just those texts that have it between white space. -/
theorem trim_eq_iff (hbody : ∀ c ∈ body, isBlank c = false) :
    trim cs = body ↔ ∃ before after, cs = before ++ body ++ after ∧
      (∀ c ∈ before, isBlank c = true) ∧ ∀ c ∈ after, isBlank c = true := by
  constructor
  · rintro rfl
    have htrim : trim cs = (cs.dropWhile isBlank).rdropWhile isBlank := rfl
    refine ⟨cs.takeWhile isBlank, (cs.dropWhile isBlank).rtakeWhile isBlank, ?_,
      fun c hc => List.mem_takeWhile_imp hc, fun c hc => List.mem_rtakeWhile_imp hc⟩
    rw [htrim, List.append_assoc, List.rdropWhile_append_rtakeWhile,
      List.takeWhile_append_dropWhile]
  · rintro ⟨before, after, rfl, hb, ha⟩
    exact trim_surrounded hb ha hbody

end Blank

/-! ## Digits -/

namespace Hex

variable {width a b k n : ℕ} {c : Char} {cs : List Char}

theorem toNat_digit (h : k < 16) : (digit k).toNat = if k < 10 then 48 + k else 87 + k := by
  interval_cases k <;> rfl

theorem toNat_toLower (c : Char) :
    c.toLower.toNat = if 65 ≤ c.toNat ∧ c.toNat ≤ 90 then c.toNat + 32 else c.toNat := by
  have hcapital : c.isUpper = true ↔ 65 ≤ c.toNat ∧ c.toNat ≤ 90 := decide_eq_true_iff
  split
  · rename_i h
    have hvalid : (c.toNat + 32).isValidChar := .inl (by omega)
    rw [Char.toLower_eq_of_isUpper (hcapital.2 h), Char.toNat_ofNat, if_pos hvalid]
  · rename_i h
    rw [Char.toLower_eq_of_not_isUpper (mt hcapital.1 h)]

/-- Digits are read in either case. -/
theorem value?_eq_some : value? c = some k ↔ k < 16 ∧ c.toLower = digit k := by
  have hnat (hk : k < 16) : c.toLower = digit k ↔
      (if 65 ≤ c.toNat ∧ c.toNat ≤ 90 then c.toNat + 32 else c.toNat) =
        if k < 10 then 48 + k else 87 + k := by
    rw [← toNat_toLower, ← toNat_digit hk, Char.toNat_inj]
  rw [and_congr_right hnat, value?]
  grind

/-- Digits are no white space. -/
theorem isBlank_of_value? (h : (value? c).isSome = true) : Blank.isBlank c = false := by
  have hrange : 48 ≤ c.toNat ∧ c.toNat ≤ 102 := by
    rw [value?] at h
    grind
  simp only [Blank.isBlank, Bool.or_eq_false_iff, Bool.and_eq_false_iff, decide_eq_false_iff_not,
    beq_eq_false_iff_ne]
  omega

/-- Digits that are read onto a number are the last digits of what they make of it. -/
theorem readFrom_eq_some :
    readFrom k cs = some n ↔
      n / 16 ^ cs.length = k ∧ cs.map Char.toLower = fixed cs.length n := by
  -- The written digits are taken apart at the last one, so the induction is from there too.
  induction cs using List.reverseRecOn generalizing n with
  | nil => simp [readFrom, fixed, eq_comm]
  | append_singleton cs c ih =>
    rw [readFrom_append]
    simp only [Option.bind_eq_some_iff, readFrom, ih, value?_eq_some, Option.some.injEq,
      List.length_append, List.length_singleton, List.map_append, List.map_singleton, fixed]
    constructor
    · rintro ⟨m, ⟨hm, hcs⟩, d, ⟨hd, hc⟩, rfl⟩
      have hdiv : (16 * m + d) / 16 = m := by omega
      have hmod : (16 * m + d) % 16 = d := by omega
      rw [pow_succ', ← Nat.div_div_eq_div_mul, hdiv, hmod, hcs, hc]
      exact ⟨hm, rfl⟩
    · rintro ⟨hk, happend⟩
      obtain ⟨hcs, hc⟩ := List.append_inj' happend rfl
      rw [pow_succ', ← Nat.div_div_eq_div_mul] at hk
      exact ⟨n / 16, ⟨hk, hcs⟩, n % 16, ⟨Nat.mod_lt n (by decide), List.singleton_inj.1 hc⟩,
        Nat.div_add_mod n 16⟩

theorem read?_eq_readFrom : read? cs = some n ↔ cs ≠ [] ∧ readFrom 0 cs = some n := by
  cases cs <;> simp [read?]

theorem lt_of_read? (h : read? cs = some n) : n < 16 ^ cs.length := by
  have hdiv := (readFrom_eq_some.1 (read?_eq_readFrom.1 h).2).1
  exact (Nat.div_eq_zero_iff_lt (by positivity)).1 hdiv

theorem fixed_zero (width : ℕ) : fixed width 0 = List.replicate width '0' := by
  induction width with
  | zero => rfl
  | succ width ih =>
    rw [fixed, Nat.zero_div, ih, List.replicate_succ']
    rfl

theorem fixed_add (a b n : ℕ) : fixed (a + b) n = fixed a (n / 16 ^ b) ++ fixed b n := by
  induction b generalizing n with
  | zero => simp [fixed]
  | succ b ih =>
    rw [← Nat.add_assoc, fixed, ih, fixed, List.append_assoc, Nat.div_div_eq_div_mul, pow_succ']

/-- Digits write a number just if they are its last digits and all before them are zeros. -/
theorem read?_eq_some (hn : n < 16 ^ width) (hcs : cs.length ≤ width) :
    read? cs = some n ↔ cs ≠ [] ∧
      fixed width n = List.replicate (width - cs.length) '0' ++ cs.map Char.toLower := by
  obtain ⟨zeros, rfl⟩ := Nat.exists_eq_add_of_le' hcs
  have hhigh : n / 16 ^ cs.length < 16 ^ zeros :=
    Nat.div_lt_of_lt_mul (by rwa [← pow_add, Nat.add_comm])
  have happend : fixed zeros (n / 16 ^ cs.length) ++ fixed cs.length n =
      fixed zeros 0 ++ cs.map Char.toLower ↔
        fixed zeros (n / 16 ^ cs.length) = fixed zeros 0 ∧
          fixed cs.length n = cs.map Char.toLower :=
    ⟨fun h => List.append_inj h (by simp), fun h => by rw [h.1, h.2]⟩
  rw [read?_eq_readFrom, readFrom_eq_some, fixed_add, Nat.add_sub_cancel, ← fixed_zero, happend,
    fixed_inj hhigh (by positivity), eq_comm (a := fixed cs.length n)]

theorem isSome_value? {zeros : List Char} (h : fixed width n = zeros ++ cs.map Char.toLower) :
    ∀ c ∈ cs, (value? c).isSome = true := by
  intro c hc
  have hmem : c.toLower ∈ fixed width n := by
    rw [h]
    exact List.mem_append_right _ (List.mem_map_of_mem hc)
  obtain ⟨k, hk, hdigit⟩ := mem_fixed hmem
  rw [value?_eq_some.2 ⟨hk, hdigit⟩]
  rfl

theorem map_toLower_fixed (width n : ℕ) : (fixed width n).map Char.toLower = fixed width n := by
  refine (List.map_congr_left fun c hc => ?_).trans (List.map_id _)
  obtain ⟨k, hk, rfl⟩ := mem_fixed hc
  exact (value?_eq_some.1 (value?_digit hk)).2

/-! ### The order of digits -/

theorem digit_lt_digit_iff (ha : a < 16) (hb : b < 16) : digit a < digit b ↔ a < b := by
  have hlt : digit a < digit b ↔ (digit a).toNat < (digit b).toNat := Iff.rfl
  rw [hlt, toNat_digit ha, toNat_digit hb]
  split <;> split <;> omega

/-- Of texts of one length that differ before their last character, the last does not matter. -/
theorem append_singleton_lt_iff {l l' : List Char} {c d : Char} (h : l.length = l'.length) :
    l ++ [c] < l' ++ [d] ↔ l < l' ∨ l = l' ∧ c < d := by
  induction l generalizing l' with
  | nil =>
    obtain rfl := List.eq_nil_of_length_eq_zero h.symm
    simp [List.cons_lt_cons_iff]
  | cons x l ih =>
    cases l' with
    | nil => cases h
    | cons y l' =>
      simp only [List.cons_append, List.cons_lt_cons_iff, ih (Nat.succ.inj h), List.cons.injEq]
      tauto

theorem fixed_lt_fixed_iff (ha : a < 16 ^ width) (hb : b < 16 ^ width) :
    fixed width a < fixed width b ↔ a < b := by
  induction width generalizing a b with
  | zero => simp_all [fixed]
  | succ width ih =>
    have ha' : a / 16 < 16 ^ width := Nat.div_lt_of_lt_mul (by rwa [← pow_succ'])
    have hb' : b / 16 < 16 ^ width := Nat.div_lt_of_lt_mul (by rwa [← pow_succ'])
    rw [fixed, fixed, append_singleton_lt_iff (by simp), ih ha' hb', fixed_inj ha' hb',
      digit_lt_digit_iff (Nat.mod_lt a (by decide)) (Nat.mod_lt b (by decide))]
    omega

end Hex

/-! ## Spellings -/

namespace ModuleId

theorem toList_toString (id : ModuleId) : (toString id).toList = Hex.fixed 32 id.toNat :=
  String.toList_ofList

/-- A way to write an id. Of its digits, which may be capitals, the last are written, at least one,
and those left out are zeros. There may be a mark and a sign before them, and white space around all
of it. The sign takes the place of a digit. -/
structure Spelling (id : ModuleId) where
  before : List Char
  mark : List Char
  sign : List Char
  digits : List Char
  after : List Char
  before_blank : ∀ c ∈ before, Blank.isBlank c = true
  mark_eq : mark = [] ∨ mark = ['0', 'x']
  sign_eq : sign = [] ∨ sign = ['+']
  digits_ne_nil : digits ≠ []
  digits_eq : (toString id).toList =
    List.replicate (32 - digits.length) '0' ++ digits.map Char.toLower
  fits : (sign ++ digits).length ≤ 32
  after_blank : ∀ c ∈ after, Blank.isBlank c = true

def Spelling.text {id : ModuleId} (s : Spelling id) : String :=
  String.ofList (s.before ++ (s.mark ++ (s.sign ++ s.digits)) ++ s.after)

/-- If something is dropped from the front of a text once, a rest without it is left of the rest
itself and of the rest behind what is dropped. -/
theorem drop_eq_iff {drop : List Char → List Char} {lead cs rest : List Char}
    (hlead : ∀ cs, drop (lead ++ cs) = cs) (hother : ∀ cs, ¬lead <+: cs → drop cs = cs)
    (hrest : ¬lead <+: rest) :
    drop cs = rest ↔ ∃ front, (front = [] ∨ front = lead) ∧ cs = front ++ rest := by
  by_cases hcs : lead <+: cs
  · obtain ⟨cs, rfl⟩ := hcs
    rw [hlead]
    constructor
    · rintro rfl
      exact ⟨lead, .inr rfl, rfl⟩
    · rintro ⟨front, rfl | rfl, h⟩
      · exact absurd ⟨cs, h⟩ hrest
      · exact List.append_cancel_left h
  · rw [hother cs hcs]
    constructor
    · rintro rfl
      exact ⟨[], .inl rfl, rfl⟩
    · rintro ⟨front, rfl | rfl, rfl⟩
      · rfl
      · exact absurd (List.prefix_append front rest) hcs

section Parts

variable {cs mark sign digits : List Char} (hmark : mark = [] ∨ mark = ['0', 'x'])
  (hsign : sign = [] ∨ sign = ['+']) (hdigits : ∀ c ∈ digits, (Hex.value? c).isSome = true)

include hdigits in
theorem dropSign_eq_iff :
    dropSign cs = digits ↔ ∃ sign, (sign = [] ∨ sign = ['+']) ∧ cs = sign ++ digits := by
  refine drop_eq_iff (fun _ => rfl) (fun cs hcs => ?_) fun h => ?_
  · unfold dropSign
    split
    · exact absurd (List.prefix_append ['+'] _) hcs
    · rfl
  · exact absurd (hdigits '+' (h.subset (by simp))) (by decide)

include hsign hdigits in
theorem dropMark_eq_iff :
    dropMark cs = sign ++ digits ↔
      ∃ mark, (mark = [] ∨ mark = ['0', 'x']) ∧ cs = mark ++ (sign ++ digits) := by
  refine drop_eq_iff (fun _ => rfl) (fun cs hcs => ?_) fun h => ?_
  · unfold dropMark
    split
    · exact absurd (List.prefix_append ['0', 'x'] _) hcs
    · rfl
  · have hx : 'x' ∈ sign ++ digits := h.subset (by simp)
    rcases List.mem_append.1 hx with hx | hx
    · rcases hsign with rfl | rfl <;> simp at hx
    · exact absurd (hdigits 'x' hx) (by decide)

include hmark hsign hdigits in
theorem isBlank_parts : ∀ c ∈ mark ++ (sign ++ digits), Blank.isBlank c = false := by
  refine List.forall_mem_append.2 ⟨?_, List.forall_mem_append.2 ⟨?_, ?_⟩⟩
  · rcases hmark with rfl | rfl <;> simp [Blank.isBlank]
  · rcases hsign with rfl | rfl <;> simp [Blank.isBlank]
  · exact fun c hc => Hex.isBlank_of_value? (hdigits c hc)

end Parts

theorem length_dropSign_le (cs : List Char) : (dropSign cs).length ≤ cs.length := by
  unfold dropSign
  split
  · simp
  · exact le_rfl

variable {id : ModuleId} {text : String}

/-- There are never more digits than an id has room for, so that none is lost. -/
theorem ofChars?_eq_some {cs : List Char} : ofChars? cs = some id ↔
    (dropMark (Blank.trim cs)).length ≤ 32 ∧
      Hex.read? (dropSign (dropMark (Blank.trim cs))) = some id.toNat := by
  unfold ofChars?
  generalize dropMark (Blank.trim cs) = body
  by_cases hlen : body.length ≤ 32
  · rw [if_pos hlen, Option.map_eq_some_iff]
    constructor
    · rintro ⟨n, hn, rfl⟩
      have hlt : n < 16 ^ 32 := (Hex.lt_of_read? hn).trans_le
        (Nat.pow_le_pow_right (by decide) ((length_dropSign_le body).trans hlen))
      have hnat : (ofNat n).toNat = n := (BitVec.toNat_ofNat ..).trans (Nat.mod_eq_of_lt hlt)
      exact ⟨hlen, hnat.symm ▸ hn⟩
    · rintro ⟨-, h⟩
      exact ⟨id.toNat, h, congrArg mk (BitVec.ofNat_toNat ..)⟩
  · simp [hlen]

/-- An id is read from its spellings and from nothing else. -/
theorem ofString?_eq_some : ofString? text = some id ↔ ∃ s : Spelling id, s.text = text := by
  rw [ofString?, ofChars?_eq_some]
  constructor
  · rintro ⟨hfits, hread⟩
    generalize hrest : dropSign (dropMark (Blank.trim text.toList)) = digits at hread
    have hle : digits.length ≤ 32 := hrest ▸ (length_dropSign_le _).trans hfits
    obtain ⟨hne, hfixed⟩ := (Hex.read?_eq_some id.toNat_lt hle).1 hread
    have hdigits := Hex.isSome_value? hfixed
    obtain ⟨sign, hsign, hbody⟩ := (dropSign_eq_iff hdigits).1 hrest
    obtain ⟨mark, hmark, htrim⟩ := (dropMark_eq_iff hsign hdigits).1 hbody
    obtain ⟨before, after, htext, hbefore, hafter⟩ :=
      (Blank.trim_eq_iff (isBlank_parts hmark hsign hdigits)).1 htrim
    refine ⟨⟨before, mark, sign, digits, after, hbefore, hmark, hsign, hne, ?_, ?_, hafter⟩, ?_⟩
    · rw [toList_toString, hfixed]
    · rwa [hbody] at hfits
    · rw [Spelling.text, ← htext, String.ofList_toList]
  · rintro ⟨s, rfl⟩
    have hfixed := id.toList_toString ▸ s.digits_eq
    have hdigits := Hex.isSome_value? hfixed
    have htrim : Blank.trim s.text.toList = s.mark ++ (s.sign ++ s.digits) :=
      (Blank.trim_eq_iff (isBlank_parts s.mark_eq s.sign_eq hdigits)).2
        ⟨s.before, s.after, String.toList_ofList, s.before_blank, s.after_blank⟩
    have hmark : dropMark (s.mark ++ (s.sign ++ s.digits)) = s.sign ++ s.digits :=
      (dropMark_eq_iff s.sign_eq hdigits).2 ⟨s.mark, s.mark_eq, rfl⟩
    have hsign : dropSign (s.sign ++ s.digits) = s.digits :=
      (dropSign_eq_iff hdigits).2 ⟨s.sign, s.sign_eq, rfl⟩
    have hle : s.digits.length ≤ 32 := by
      have hfits := s.fits
      rw [List.length_append] at hfits
      omega
    rw [htrim, hmark, hsign]
    exact ⟨s.fits, (Hex.read?_eq_some id.toNat_lt hle).2 ⟨s.digits_ne_nil, hfixed⟩⟩

/-- The text of an id spells it. -/
def Spelling.plain (id : ModuleId) : Spelling id where
  before := []
  mark := []
  sign := []
  digits := Hex.fixed 32 id.toNat
  after := []
  before_blank := by simp
  mark_eq := .inl rfl
  sign_eq := .inl rfl
  digits_ne_nil := List.ne_nil_of_length_pos (by simp)
  digits_eq := by simp [toList_toString, Hex.map_toLower_fixed]
  fits := by simp
  after_blank := by simp

theorem ofString?_toString (id : ModuleId) : ofString? (toString id) = some id := by
  refine ofString?_eq_some.2 ⟨.plain id, ?_⟩
  simp [Spelling.text, Spelling.plain, ← toList_toString]

end ModuleId

/-- A registry lists its signatures in ascending order of their ids. -/
theorem Registry.Reached.signatures_ascending {r : Registry} (hr : r.Reached) :
    r.signatures.Pairwise fun s t => s.id.toNat < t.id.toNat := by
  rw [signatures, List.pairwise_map]
  refine hr.ascending.imp_of_mem fun {p q} hp hq hlt => ?_
  rwa [hr.indexed.keyed p hp, hr.indexed.keyed q hq]

namespace ModuleId

theorem toString_lt_toString_iff {a b : ModuleId} :
    toString a < toString b ↔ a.toNat < b.toNat := by
  rw [String.lt_iff_toList_lt, toList_toString, toList_toString,
    Hex.fixed_lt_fixed_iff a.toNat_lt b.toNat_lt]

/-- The text of an id is 32 digits, none of them a capital. An id is read from a text just if the
text spells it. So no two ids have the same text, and since the order of texts is the order of the
numbers, a registry lists its modules in the order of the texts of their ids. -/
theorem text_faithful :
    (∀ id : ModuleId, (toString id).length = 32 ∧
      (∀ c ∈ (toString id).toList, '0' ≤ c ∧ c ≤ '9' ∨ 'a' ≤ c ∧ c ≤ 'f') ∧
      ∀ text, ofString? text = some id ↔ ∃ s : Spelling id, s.text = text) ∧
    (∀ a b : ModuleId, (toString a = toString b ↔ a = b) ∧
      (toString a < toString b ↔ a.toNat < b.toNat)) ∧
    ∀ history : List Registration, (Registration.performAll history).signatures.Pairwise
      fun s t => s.id.toNat < t.id.toNat ∧ toString s.id < toString t.id := by
  refine ⟨fun id => ⟨?_, fun c hc => ?_, fun text => ofString?_eq_some⟩, fun a b => ⟨?_, ?_⟩,
    fun history => ?_⟩
  · rw [← String.length_toList, toList_toString, Hex.length_fixed]
  · rw [toList_toString] at hc
    obtain ⟨k, hk, rfl⟩ := Hex.mem_fixed hc
    interval_cases k <;> decide
  · exact ⟨toString_inj, congrArg _⟩
  · exact toString_lt_toString_iff
  · refine (Registration.reached_performAll history).signatures_ascending.imp fun hlt => ?_
    exact ⟨hlt, toString_lt_toString_iff.2 hlt⟩

/-- A mark, some zeros less, capitals and white space, also such that takes more than one byte. -/
theorem text_faithful_capitals :
    ofString? "\t0x0Ab9F\u3000" = some (ofNat 0xab9f) ∧
      toString (ofNat 0xab9f) < toString (ofNat 0xaba0) := by
  have hspelled : ∃ s : Spelling (ofNat 0xab9f), s.text = "\t0x0Ab9F\u3000" :=
    ⟨⟨['\t'], ['0', 'x'], [], ['0', 'A', 'b', '9', 'F'], ['\u3000'], by simp [Blank.isBlank],
      .inr rfl, .inl rfl, by simp, by decide, by decide, by simp [Blank.isBlank]⟩, by decide⟩
  exact ⟨((text_faithful.1 _).2.2 _).2 hspelled, (text_faithful.2.1 _ _).2.2 (by decide)⟩

end ModuleId

end SignalGraph
