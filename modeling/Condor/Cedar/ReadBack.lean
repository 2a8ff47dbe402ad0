import Condor.Cedar.Stream
import Condor.Cedar.Receiving

/-!
# Typed values — what is put is what is got

Values are got as they were put, but for two. A string whose first byte is the mark of `NULL` is got
as an empty one, and without encryption the reader stays behind in the string. A number that is got
as a `short` is cut off instead of refused if it is one of an `int`.

* **`values_read_back`**.
-/

namespace Condor.Cedar

open NetOrder List Option Nat Value

variable {enc : Bool} {v : Value} {vs : List Value} {kind : Kind} {kinds : List Kind}
  {b bs bytes r r' : List Byte} {s : CString} {len : BitVec 32} {n : ℕ} {pad : BitVec 32 → Byte}
  (l : BitVec 64) (i : BitVec 32)

/-! ## Integers -/

theorem takeBytes_append (h : b.length = n) : takeBytes n (b ++ r) = some (b, r) := by
  subst h
  rw [takeBytes, if_pos (by simp), take_left, drop_left]

theorem takeBytes_length (h : takeBytes n bs = some (b, r)) :
    b.length = n ∧ bs.length = n + r.length := by
  by_cases hn : n ≤ bs.length
  · rw [takeBytes, if_pos hn] at h
    cases h
    simp only [length_take, length_drop]
    omega
  · rw [takeBytes, if_neg hn] at h
    cases h

theorem length_htonl : (htonl i).length = 4 := length_toNet 4 _

theorem length_htonL : (htonL l).length = 8 := length_toNet 8 _

theorem ntohL_htonL : ntohL (htonL l) = l := ofNat_ofNet_toNet (k := 8) l

theorem all_eq_iff {a : Byte} (h : b.length = n) : (b.all (· = a)) = true ↔ b = replicate n a := by
  rw [eq_replicate_iff]
  simp [h]

theorem getPadded_append (hb : b.length = 4) (i : BitVec 32) : getPadded pad (b ++ htonl i ++ r) =
    if b = replicate 4 (pad i) then some (i, r) else none := by
  rw [getPadded, append_assoc, takeBytes_append (n := intSize - sizeofInt) hb]
  simp only [bind_eq_bind, bind_some, takeBytes_append (n := sizeofInt) (length_htonl i),
    ntohl_htonl, all_eq_iff hb]

theorem getPadded_putPadded : getPadded pad (putPadded pad i ++ r) = some (i, r) := by
  rw [putPadded, getPadded_append (by simp [intSize, sizeofInt])]
  exact if_pos rfl

theorem getInt_putInt : getInt (putInt i ++ r) = some (i, r) := getPadded_putPadded i

theorem getUInt_putUInt : getUInt (putUInt i ++ r) = some (i, r) := getPadded_putPadded i

theorem getLong_htonL : getLong (htonL l ++ r) = some (l, r) := by
  rw [getLong, takeBytes_append (length_htonL l)]
  simp [ntohL_htonL]

theorem setWidth_signExtend {m n : ℕ} (h : m ≤ n) (i : BitVec m) :
    (i.signExtend n).setWidth m = i := by
  ext k hk
  simp only [BitVec.getElem_setWidth, BitVec.getLsbD_signExtend, hk, if_true,
    BitVec.getLsbD_eq_getElem, Bool.and_eq_right_iff_imp, decide_eq_true_eq]
  omega

theorem getShort_putShort (s : BitVec 16) : getShort (putShort s ++ r) = some (s, r) := by
  rw [getShort, putShort, getInt_putInt]
  simp [setWidth_signExtend]

theorem getUShort_putUShort (s : BitVec 16) : getUShort (putUShort s ++ r) = some (s, r) := by
  rw [getUShort, putUShort, getUInt_putUInt]
  simp

theorem getPadded_length {i : BitVec 32} (h : getPadded pad bs = some (i, r)) :
    bs.length = 8 + r.length := by
  obtain ⟨⟨padding, bs1⟩, hpadding, h⟩ := bind_eq_some_iff.mp h
  obtain ⟨⟨tmp, bs2⟩, htmp, h⟩ := bind_eq_some_iff.mp h
  have hlen := (takeBytes_length hpadding).2
  have hlen1 := (takeBytes_length htmp).2
  dsimp only at h
  split_ifs at h
  cases h
  rw [hlen, hlen1]
  simp only [intSize, sizeofInt]
  omega

theorem getLong_length {l : BitVec 64} (h : getLong bs = some (l, r)) :
    bs.length = 8 + r.length := by
  obtain ⟨⟨tmp, bs1⟩, htmp, h⟩ := bind_eq_some_iff.mp h
  cases h
  exact (takeBytes_length htmp).2

/-! ## Strings -/

/-- The length of a string, with its NUL, is an `int`. -/
def Value.Short : Value → Prop
  | string s => s.1.length + 1 < 2 ^ 31
  | _ => True

def Value.Unmarked : Value → Prop
  | string s => s.1.head? ≠ some binNullChar
  | _ => True

theorem takeWhile_append_nul : (s.1 ++ 0 :: r).takeWhile (· ≠ 0) = s.1 := by
  rw [takeWhile_append_of_pos]
  · simp
  · intro a ha
    simpa using fun h0 : a = 0 => s.2 (h0 ▸ ha)

theorem cstring_append_nul (r : List Byte) : cstring (s.1 ++ 0 :: r) = s :=
  Subtype.ext takeWhile_append_nul

theorem getPtr_append (s : CString) (r : List Byte) : getPtr (s.1 ++ 0 :: r) = some (s, r) := by
  have hdrop : (s.1 ++ 0 :: r).dropWhile (· ≠ 0) = 0 :: r := by
    rw [dropWhile_append_of_pos]
    · simp
    · intro a ha
      simpa using fun h0 : a = 0 => s.2 (h0 ▸ ha)
  rw [getPtr, hdrop, cstring_append_nul]

theorem len_toNat (h : n + 1 < 2 ^ 31) :
    (BitVec.ofNat 32 (n + 1)).toNat = n + 1 ∧ (BitVec.ofNat 32 (n + 1)).toInt = n + 1 := by
  have hnat : (BitVec.ofNat 32 (n + 1)).toNat = n + 1 := by
    rw [BitVec.toNat_ofNat]
    omega
  refine ⟨hnat, ?_⟩
  rw [BitVec.toInt_eq_toNat_cond]
  split <;> omega

theorem putString_short (h : s.1.length + 1 < 2 ^ 31) : putString enc s.1 =
      some ((if enc then putInt (BitVec.ofNat 32 (s.1.length + 1)) else []) ++ (s.1 ++ [0])) := by
  obtain ⟨hnat, hint⟩ := len_toNat h
  rw [putString, if_neg (by omega), hnat, take_of_length_le (by simp)]

theorem getStringPtr_putInt (hpos : 0 < len.toInt) (hb : b.length = len.toNat) :
    getStringPtr true (putInt len ++ b ++ r) =
      if b.head? = some binNullChar then some (none, r) else some (some (cstring b), r) := by
  simp only [getStringPtr, if_true, append_assoc, getInt_putInt, bind_eq_bind, bind_some]
  rw [if_neg (by omega), takeBytes_append hb]
  rfl

theorem getStringPtr_cons (c : Byte) : getStringPtr false (c :: bs) =
      if c = binNullChar then some (none, bs)
      else (getPtr (c :: bs)).map fun r => (some r.1, r.2) := by
  simp only [getStringPtr, map_eq_bind]
  rfl

theorem getString_put (h : s.1.length + 1 < 2 ^ 31) (hb : putString enc s.1 = some b) :
    getString enc (b ++ r) = if s.1.head? = some binNullChar then
        some (cstring [], if enc then r else s.1.tail ++ 0 :: r)
      else some (s, r) := by
  obtain ⟨hnat, hint⟩ := len_toNat h
  have hhead : (s.1 ++ [0]).head? = some binNullChar ↔ s.1.head? = some binNullChar := by
    cases s.1 with
    | nil => decide
    | cons c t => rfl
  rw [putString_short h, some.injEq] at hb
  subst hb
  cases enc with
  | true =>
    rw [getString, if_pos rfl, getStringPtr_putInt (by omega) (by simp [hnat])]
    simp only [hhead, cstring_append_nul []]
    split <;> rfl
  | false =>
    have hptr := getPtr_append s r
    rw [getString, if_neg (by decide), nil_append, append_assoc, singleton_append]
    cases hs : s.1 with
    | nil =>
      rw [hs] at hptr
      rw [nil_append, getStringPtr_cons]
      rw [nil_append] at hptr
      rw [hptr]
      rfl
    | cons c t =>
      rw [hs, cons_append] at hptr
      rw [cons_append, getStringPtr_cons, hptr]
      simp only [head?_cons, some.injEq]
      split <;> rfl

theorem getStringPtr_zero (hzero : len.toInt ≤ 0) : getStringPtr true (putInt len ++ r) = none := by
  simp only [getStringPtr, getInt_putInt]
  exact if_pos hzero

theorem getStringPtr_of_getString (h : getString enc bs = some (s, r)) :
    ∃ ptr : Option CString, getStringPtr enc bs = some (ptr, r) ∧ ptr.getD (cstring []) = s := by
  obtain ⟨⟨ptr, r1⟩, hptr, hr⟩ := bind_eq_some_iff.mp h
  rw [Option.pure_def, Option.some.injEq, Prod.mk.injEq] at hr
  exact ⟨ptr, by rw [hptr, hr.2], hr.1⟩

theorem length_cstring_le : (cstring bs).1.length ≤ bs.length :=
  (takeWhile_sublist _).length_le

theorem getString_long (h : ¬ s.1.length + 1 < 2 ^ 31) (hb : putString true s.1 = some b) :
    getString true (b ++ r) ≠ some (s, r') := by
  intro hget
  obtain ⟨ptr, hptr, hs⟩ := getStringPtr_of_getString hget
  rw [putString] at hb
  generalize hl : BitVec.ofNat 32 (s.1.length + 1) = len at hb
  by_cases hneg : len.toInt < 0
  · rw [if_pos hneg] at hb
    cases hb
  rw [if_neg hneg, if_pos rfl, some.injEq] at hb
  subst hb
  have hlen : len.toNat < s.1.length := by
    rw [BitVec.toInt_eq_toNat_cond] at hneg
    have hmod : len.toNat = (s.1.length + 1) % 2 ^ 32 := by rw [← hl, BitVec.toNat_ofNat]
    split at hneg <;> omega
  by_cases hpos : 0 < len.toInt
  · have htake : ((s.1 ++ [0]).take len.toNat).length = len.toNat := by
      rw [length_take, length_append]
      omega
    rw [getStringPtr_putInt hpos htake] at hptr
    have hle : (ptr.getD (cstring [])).1.length ≤ len.toNat := by
      split at hptr
      · cases hptr
        exact zero_le _
      · cases hptr
        exact le_trans length_cstring_le (le_of_eq htake)
    rw [hs] at hle
    omega
  · rw [append_assoc, getStringPtr_zero (by omega)] at hptr
    cases hptr

theorem getString_length (h : getString false bs = some (s, r)) :
    bs.length = s.1.length + 1 + r.length := by
  obtain ⟨ptr, hptr, hs⟩ := getStringPtr_of_getString h
  subst hs
  cases bs with
  | nil => cases hptr
  | cons c bs =>
    rw [getStringPtr_cons] at hptr
    by_cases hc : c = binNullChar
    · rw [if_pos hc] at hptr
      cases hptr
      exact add_comm r.length 1
    · rw [if_neg hc] at hptr
      obtain ⟨⟨t, r2⟩, hget, hr⟩ := map_eq_some_iff.mp hptr
      cases hr
      have hsplit := takeWhile_append_dropWhile (p := (· ≠ (0 : Byte))) (l := c :: bs)
      rw [getPtr] at hget
      cases hdrop : (c :: bs).dropWhile (· ≠ 0) with
      | nil =>
        rw [hdrop] at hget
        cases hget
      | cons d rest =>
        rw [hdrop] at hget hsplit
        cases hget
        have hlen := congrArg length hsplit
        rw [length_append, length_cons, ← add_assoc] at hlen
        exact hlen.symm.trans (add_right_comm _ _ _)

/-! ## Values -/

def Value.size : Value → ℕ
  | char _ => 1
  | string s => s.1.length + 1
  | _ => 8

theorem get_length (h : get false kind bs = some (v, r)) : bs.length = v.size + r.length := by
  cases kind <;> obtain ⟨⟨x, r1⟩, hget, hr⟩ := map_eq_some_iff.mp h <;> cases hr
  case char => exact (takeBytes_length hget).2
  case int => exact getPadded_length hget
  case uint => exact getPadded_length hget
  case long => exact getLong_length hget
  case ulong => exact getLong_length hget
  case short =>
    obtain ⟨⟨i, r2⟩, hint, hi⟩ := bind_eq_some_iff.mp hget
    cases hi
    exact getPadded_length hint
  case ushort =>
    obtain ⟨⟨i, r2⟩, hint, hi⟩ := bind_eq_some_iff.mp hget
    cases hi
    exact getPadded_length hint
  case string => exact getString_length hget

theorem length_putPadded (pad : BitVec 32 → Byte) (i : BitVec 32) :
    (putPadded pad i).length = 8 := by
  rfl

theorem put_length (h : put false v = some b) :
    b.length ≤ v.size ∧ (b.length = v.size → v.Short) := by
  cases v with
  | string s =>
    change putString false s.1 = some b at h
    rw [putString] at h
    generalize hl : BitVec.ofNat 32 (s.1.length + 1) = len at h
    have hmod : len.toNat = (s.1.length + 1) % 2 ^ 32 := by rw [← hl, BitVec.toNat_ofNat]
    by_cases hneg : len.toInt < 0
    · rw [if_pos hneg] at h
      cases h
    · rw [if_neg hneg, if_neg (by decide), some.injEq, nil_append] at h
      subst h
      rw [BitVec.toInt_eq_toNat_cond] at hneg
      simp only [length_take, Value.size, Short]
      split at hneg <;> omega
  | char c => cases h; exact ⟨le_refl _, fun _ => trivial⟩
  | int i => cases h; exact ⟨le_of_eq (length_putPadded _ i), fun _ => trivial⟩
  | uint i => cases h; exact ⟨le_of_eq (length_putPadded _ i), fun _ => trivial⟩
  | long l | ulong l => cases h; exact ⟨le_of_eq (length_htonL l), fun _ => trivial⟩
  | short s => cases h; exact ⟨le_of_eq (length_putPadded _ _), fun _ => trivial⟩
  | ushort s => cases h; exact ⟨le_of_eq (length_putPadded (fun _ => 0) _), fun _ => trivial⟩

theorem put_short (enc : Bool) (h : v.Short) : ∃ b, put enc v = some b := by
  cases v with
  | string s => exact ⟨_, putString_short h⟩
  | _ => exact ⟨_, rfl⟩

theorem get_put (hshort : v.Short) (hmark : v.Unmarked) (hb : put enc v = some b) :
    get enc v.kind (b ++ r) = some (v, r) := by
  cases v with
  | string s =>
    change (getString enc (b ++ r)).map _ = _
    rw [getString_put hshort hb, if_neg hmark]
    rfl
  | char c => cases hb; rw [kind]; rfl
  | int i => cases hb; rw [kind, get, getInt_putInt]; rfl
  | uint i => cases hb; rw [kind, get, getUInt_putUInt]; rfl
  | long l => cases hb; rw [kind, get, putLong, getLong_htonL]; rfl
  | ulong l => cases hb; rw [kind, get]; exact congrArg _ (getLong_htonL l)
  | short s => cases hb; rw [kind, get, getShort_putShort]; rfl
  | ushort s => cases hb; rw [kind, get, getUShort_putUShort]; rfl

theorem unmarked_of_get (hshort : v.Short) (hb : put enc v = some b)
    (h : get enc v.kind (b ++ r) = some (v, r')) : v.Unmarked := by
  cases v with
  | string s =>
    intro hmark
    change (getString enc (b ++ r)).map _ = _ at h
    rw [getString_put hshort hb, if_pos hmark] at h
    simp only [map_some, some.injEq, Prod.mk.injEq, string.injEq] at h
    rw [← h.1] at hmark
    cases hmark
  | _ => trivial

theorem short_of_get (hb : put true v = some b) (h : get true v.kind (b ++ r) = some (v, r')) :
    v.Short := by
  cases v with
  | string s =>
    by_contra hlong
    obtain ⟨⟨t, r1⟩, hget, hr⟩ := map_eq_some_iff.mp h
    simp only [Prod.mk.injEq, string.injEq] at hr
    exact getString_long hlong hb (hr.1 ▸ hget)
  | _ => trivial

/-! ## Sequences of values -/

/-- The values are put, and they are got from the bytes, whatever follows. -/
def ReadsBack (enc : Bool) (vs : List Value) : Prop :=
  ∃ bytes, putAll enc vs = some bytes ∧
    ∀ rest, getAll enc (vs.map Value.kind) (bytes ++ rest) = some (vs, rest)

theorem putAll_cons (h : putAll enc (v :: vs) = some bytes) :
    ∃ b more, put enc v = some b ∧ putAll enc vs = some more ∧ bytes = b ++ more := by
  obtain ⟨b, hb, h⟩ := bind_eq_some_iff.mp h
  obtain ⟨more, hmore, h⟩ := bind_eq_some_iff.mp h
  cases h
  exact ⟨b, more, hb, hmore, rfl⟩

theorem getAll_cons (h : getAll enc (kind :: kinds) bs = some (v :: vs, r)) :
    ∃ r1, get enc kind bs = some (v, r1) ∧ getAll enc kinds r1 = some (vs, r) := by
  obtain ⟨⟨v', r1⟩, hv, h⟩ := bind_eq_some_iff.mp h
  obtain ⟨⟨vs', r2⟩, hvs, h⟩ := bind_eq_some_iff.mp h
  cases h
  exact ⟨r1, hv, hvs⟩

theorem readsBack_of_readable (h : ∀ v ∈ vs, v.Short ∧ v.Unmarked) : ReadsBack enc vs := by
  induction vs with
  | nil => exact ⟨[], rfl, fun rest => rfl⟩
  | cons v vs ih =>
    obtain ⟨hshort, hmark⟩ := h v mem_cons_self
    obtain ⟨more, hmore, hget⟩ := ih fun u hu => h u (mem_cons_of_mem v hu)
    obtain ⟨b, hb⟩ := put_short enc hshort
    refine ⟨b ++ more, by simp [putAll, hb, hmore], fun rest => ?_⟩
    rw [map_cons, getAll, append_assoc, get_put hshort hmark hb]
    simp [hget rest]

theorem readsBack_cons (hshort : v.Short) (h : ReadsBack enc (v :: vs)) :
    v.Unmarked ∧ ReadsBack enc vs := by
  obtain ⟨bytes, hput, hget⟩ := h
  obtain ⟨b, more, hb, hmore, rfl⟩ := putAll_cons hput
  have hmark : v.Unmarked := by
    obtain ⟨r1, hv, -⟩ := getAll_cons (hget [])
    rw [append_assoc] at hv
    exact unmarked_of_get hshort hb hv
  refine ⟨hmark, more, hmore, fun rest => ?_⟩
  obtain ⟨r1, hv, hvs⟩ := getAll_cons (hget rest)
  rw [append_assoc, get_put hshort hmark hb] at hv
  cases hv
  exact hvs

theorem length_of_getAll
    (h : getAll false kinds bs = some (vs, r)) :
    bs.length = (vs.map Value.size).sum + r.length := by
  induction kinds generalizing vs bs with
  | nil =>
    cases h
    simp
  | cons kind kinds ih =>
    obtain ⟨⟨v, r1⟩, hv, h⟩ := bind_eq_some_iff.mp h
    obtain ⟨⟨vs, r2⟩, hvs, h⟩ := bind_eq_some_iff.mp h
    cases h
    rw [get_length hv, ih hvs, map_cons, sum_cons, add_assoc]

theorem length_of_putAll (h : putAll false vs = some bytes) :
    bytes.length ≤ (vs.map Value.size).sum ∧
      (bytes.length = (vs.map Value.size).sum → ∀ v ∈ vs, v.Short) := by
  induction vs generalizing bytes with
  | nil =>
    cases h
    simp
  | cons v vs ih =>
    obtain ⟨b, more, hb, hmore, rfl⟩ := putAll_cons h
    obtain ⟨hle, hshort⟩ := put_length hb
    obtain ⟨hles, hshorts⟩ := ih hmore
    rw [length_append, map_cons, sum_cons]
    refine ⟨Nat.add_le_add hle hles, fun heq => ?_⟩
    exact forall_mem_cons.mpr ⟨hshort (by omega), hshorts (by omega)⟩

theorem short_of_readsBack (h : ReadsBack enc vs) : ∀ v ∈ vs, v.Short := by
  cases enc with
  | true =>
    induction vs with
    | nil => exact fun v hv => absurd hv not_mem_nil
    | cons v vs ih =>
      have hshort : v.Short := by
        obtain ⟨bytes, hput, hget⟩ := h
        obtain ⟨b, more, hb, -, rfl⟩ := putAll_cons hput
        obtain ⟨r1, hv, -⟩ := getAll_cons (hget [])
        rw [append_assoc] at hv
        exact short_of_get hb hv
      exact forall_mem_cons.mpr ⟨hshort, ih (readsBack_cons hshort h).2⟩
  | false =>
    obtain ⟨bytes, hput, hget⟩ := h
    have hlen := length_of_getAll (hget [])
    rw [append_nil] at hlen
    exact (length_of_putAll hput).2 hlen

theorem unmarked_of_readsBack (h : ReadsBack enc vs) : ∀ v ∈ vs, v.Unmarked := by
  have hshort := short_of_readsBack h
  induction vs with
  | nil => exact fun v hv => absurd hv not_mem_nil
  | cons v vs ih =>
    obtain ⟨hmark, hvs⟩ := readsBack_cons (hshort v mem_cons_self) h
    exact forall_mem_cons.mpr ⟨hmark, ih hvs (short_of_readsBack hvs)⟩

theorem readsBack_iff : ReadsBack enc vs ↔ ∀ v ∈ vs, v.Short ∧ v.Unmarked :=
  ⟨fun h v hv => ⟨short_of_readsBack h v hv, unmarked_of_readsBack h v hv⟩, readsBack_of_readable⟩

/-! ## Integers of different widths -/

/-- An integer put with one width is got with the other if it is one of the reader's, or else
refused. -/
def ReadsAs (w w' : Width) (i : BitVec w.bits) : Prop :=
  ∀ rest, getSigned w' (putSigned w i ++ rest) =
    if w'.Fits i.toInt then some (BitVec.ofInt w'.bits i.toInt, rest) else none

theorem replicate_signByte :
    replicate 4 (signByte i) = toNet 4 (if 0 ≤ i.toInt then 0 else 2 ^ 32 - 1) := by
  rw [signByte]
  split <;> rfl

theorem htonL_eq : htonL l = toNet 4 (l.toNat / 2 ^ 32) ++ htonl (l.setWidth 32) := by
  have hlow : toNet 4 l.toNat = htonl (l.setWidth 32) := (toNet_mod 4 l.toNat).symm
  rw [htonL, toNet_add 4 4, hlow]
  rfl

theorem sign_padding_iff : toNet 4 (l.toNat / 2 ^ 32) = replicate 4 (signByte (l.setWidth 32)) ↔
      Width.int.Fits l.toInt := by
  have hsign : 0 ≤ (l.setWidth 32).toInt ↔ l.toNat % 2 ^ 32 < 2 ^ 31 := by
    rw [BitVec.toInt_eq_toNat_cond, BitVec.toNat_setWidth]
    split <;> omega
  have hfits : Width.int.Fits l.toInt ↔ -2 ^ 31 ≤ l.toInt ∧ l.toInt < 2 ^ 31 := Iff.rfl
  have hinj : ∀ n, n < 2 ^ 32 → (toNet 4 (l.toNat / 2 ^ 32) = toNet 4 n ↔ l.toNat / 2 ^ 32 = n) :=
    fun n hn => ⟨toNet_inj (show _ < 2 ^ 32 by omega) hn, fun h => h ▸ rfl⟩
  rw [replicate_signByte, hinj _ (by split <;> omega), hfits, BitVec.toInt_eq_toNat_cond l]
  by_cases hpos : l.toNat % 2 ^ 32 < 2 ^ 31
  · rw [if_pos (hsign.mpr hpos)]
    split <;> omega
  · rw [if_neg fun h => hpos (hsign.mp h)]
    split <;> omega

theorem setWidth_eq_ofInt (n : ℕ) (hn : n ≤ 64) (l : BitVec 64) :
    l.setWidth n = BitVec.ofInt n l.toInt := by
  have hdvd : (2 : ℤ) ^ n ∣ (2 : ℤ) ^ 64 := pow_dvd_pow 2 hn
  apply BitVec.eq_of_toInt_eq
  rw [BitVec.toInt_setWidth, BitVec.toInt_ofInt, BitVec.toInt_eq_toNat_bmod,
    Int.bmod_bmod_of_dvd (by exact_mod_cast hdvd)]

theorem getInt_htonL :
    getInt (htonL l ++ r) = if Width.int.Fits l.toInt then some (BitVec.ofInt 32 l.toInt, r)
      else none := by
  rw [htonL_eq, getInt, getPadded_append (length_toNet 4 _)]
  simp only [← setWidth_eq_ofInt 32 (by decide), sign_padding_iff]

theorem getShort_htonL : getShort (htonL l ++ r) =
      if Width.int.Fits l.toInt then some (BitVec.ofInt 16 l.toInt, r) else none := by
  have hcut : (BitVec.ofInt 32 l.toInt).setWidth 16 = BitVec.ofInt 16 l.toInt := by
    rw [← setWidth_eq_ofInt 32 (by decide), BitVec.setWidth_setWidth_of_le _ (by decide),
      setWidth_eq_ofInt 16 (by decide)]
  rw [getShort, getInt_htonL]
  by_cases hfits : Width.int.Fits l.toInt
  · simp [hfits, hcut]
  · simp [hfits]

theorem putInt_htonL : putInt i = htonL (i.signExtend 64) := by
  have hfits : Width.int.Fits (i.signExtend 64).toInt := by
    rw [BitVec.toInt_signExtend_of_le (by decide)]
    exact ⟨BitVec.le_toInt i, BitVec.toInt_lt⟩
  rw [htonL_eq, (sign_padding_iff _).mpr hfits, setWidth_signExtend (by decide)]
  rfl

theorem putSigned_htonL (w : Width) (i : BitVec w.bits) :
    ∃ l : BitVec 64, putSigned w i = htonL l ∧ l.toInt = i.toInt := by
  cases w with
  | short =>
    refine ⟨_, putInt_htonL _, ?_⟩
    rw [BitVec.toInt_signExtend_of_le (by decide)]
    exact BitVec.toInt_signExtend_of_le (by decide)
  | int => exact ⟨_, putInt_htonL i, BitVec.toInt_signExtend_of_le (by decide)⟩
  | long => exact ⟨i, rfl, rfl⟩

/-- The width in which a number that is got is looked at. -/
def Width.checked : Width → Width
  | short => int
  | w => w

theorem getSigned_htonL (w : Width) (l : BitVec 64) : getSigned w (htonL l ++ r) =
      if w.checked.Fits l.toInt then some (BitVec.ofInt w.bits l.toInt, r) else none := by
  cases w with
  | short => exact getShort_htonL l
  | int => exact getInt_htonL l
  | long =>
    have hfits : Width.long.Fits l.toInt := ⟨BitVec.le_toInt l, BitVec.toInt_lt⟩
    refine (getLong_htonL l).trans (Eq.trans ?_ (if_pos hfits).symm)
    exact congrArg (fun i => some (i, r)) (BitVec.ofInt_toInt).symm

theorem readsAs_iff (w w' : Width) (i : BitVec w.bits) :
    ReadsAs w w' i ↔ ¬ (w' = .short ∧ Width.int.Fits i.toInt ∧ ¬ Width.short.Fits i.toInt) := by
  obtain ⟨l, hput, hl⟩ := putSigned_htonL w i
  rw [ReadsAs, hput, ← hl]
  simp only [getSigned_htonL]
  cases w' with
  | short =>
    constructor
    · rintro h ⟨-, hint, hshort⟩
      have hnil := h []
      rw [if_neg hshort] at hnil
      exact absurd hnil (by rw [if_pos (show Width.short.checked.Fits l.toInt from hint)]; simp)
    · intro h rest
      by_cases hshort : Width.short.Fits l.toInt
      · have hint : Width.short.checked.Fits l.toInt := by
          simp only [Width.Fits, Width.bits, Width.checked] at hshort ⊢
          omega
        rw [if_pos hint, if_pos hshort]
      · have hint : ¬ Width.short.checked.Fits l.toInt := fun hint => h ⟨rfl, hint, hshort⟩
        rw [if_neg hint, if_neg hshort]
  | int | long => exact ⟨fun _ h => (nomatch h.1), fun _ rest => rfl⟩

/-! ## What is got -/

/-- **Exactly the values without a string that is too long or starts with the mark of `NULL`** are
got as they were put. An integer got with another width is the same or refused, unless it is got as
a `short`. -/
theorem values_read_back (enc : Bool) (vs : List Value) (w w' : Width) (i : BitVec w.bits) :
    (ReadsBack enc vs ↔ ∀ v ∈ vs, v.Short ∧ v.Unmarked) ∧
    (ReadsAs w w' i ↔ ¬ (w' = .short ∧ Width.int.Fits i.toInt ∧ ¬ Width.short.Fits i.toInt)) :=
  ⟨readsBack_iff, readsAs_iff w w' i⟩

/-- A string behind the mark of `NULL` is got as an empty one, and `70000` as the `short` `4464`. -/
theorem marked_string_lost : put false (.string ⟨[0xad, 0x61], by decide⟩) = some [0xad, 0x61, 0] ∧
    get false .string [0xad, 0x61, 0] = some (.string ⟨[], by decide⟩, [0x61, 0]) ∧
    ¬ ReadsBack false [.string ⟨[0xad, 0x61], by decide⟩] ∧
    ¬ ReadsBack true [.string ⟨[0xad, 0x61], by decide⟩] ∧
    getSigned .short (putSigned .int 70000) = some (4464, []) ∧ ¬ ReadsAs .int .short 70000 := by
  have hlost : ∀ b, ¬ ReadsBack b [.string ⟨[0xad, 0x61], by decide⟩] := fun b => by
    rw [readsBack_iff]
    exact fun h => absurd rfl (h _ mem_cons_self).2
  refine ⟨by decide, by decide, hlost _, hlost _, by decide, ?_⟩
  rw [readsAs_iff]
  exact fun h => h (by decide)

end Condor.Cedar
