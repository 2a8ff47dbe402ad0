import Condor.Cedar.Reassembly
import Mathlib.Algebra.BigOperators.Intervals

/-!
# CEDAR over UDP — a message is read as it was put

* **`message_reassembled`**.
-/

namespace Condor.Cedar

open Option Nat OutPacket
open List (getElem?_eq_getElem getElem?_eq_none length_pos_iff mem_cons_self length_drop
  flatten_cons
  length_nil length_map mem_append mem_singleton mem_map)

namespace InMsg

variable {m : InMsg} {bodies ps : List (List Byte)} {b bytes : List Byte} {off n j : ℕ}
  {fs : List Fragment}

/-! ## The packets that have not been read -/

/-- The packets from an entry on, and nothing behind them. -/
def Entries (pages : List DirPage) (i : ℕ) (ps : List (List Byte)) : Prop :=
  ∀ j, entryAt pages (i + j) = (ps[j]?.map filled).getD {}

variable {pages : List DirPage} {k : Fin safeMsgNoOfDirEntry} {i : ℕ}

theorem Entries.tail (h : Entries pages i (b :: ps)) : Entries pages (i + 1) ps := by
  intro j
  rw [add_assoc, add_comm 1 j]
  exact h (j + 1)

theorem Entries.page (h : Entries pages (safeMsgNoOfDirEntry * j + k) (b :: ps)) :
    ∃ page, pages[j]? = some page ∧ page.dEntry k = filled b := by
  have hentry : entryAt pages (safeMsgNoOfDirEntry * j + k) = filled b := h 0
  by_cases hj : j < pages.length
  · rw [entryAt_page hj] at hentry
    exact ⟨pages[j], getElem?_eq_getElem hj, hentry⟩
  · rw [entryAt, Paged.lookup, Paged.index_div, getElem?_eq_none (by simpa using hj)] at hentry
    exact absurd (congrArg DEntry.dGram hentry) (some_ne_none _).symm

theorem entryAt_tail : entryAt pages.tail i = entryAt pages (safeMsgNoOfDirEntry + i) := by
  cases pages with
  | nil => rfl
  | cons page pages => exact (Paged.lookup_cons _ i).symm

theorem val_add_one (hk : ¬ k.val + 1 = safeMsgNoOfDirEntry) : (k + 1).val = k.val + 1 := by
  have hlt : k.val + 1 < safeMsgNoOfDirEntry := lt_of_le_of_ne k.isLt hk
  exact mod_eq_of_lt hlt

/-- The packets that have not been read, with the first one in part; so many bytes have been. -/
structure Reading (ps : List (List Byte)) (off : ℕ) (m : InMsg) : Prop where
  curDir : m.curDir = 0
  entries : Entries m.pages m.curPacket ps
  ne_nil : ∀ b ∈ ps, b ≠ []
  curData : m.curData = 0 ∨ m.curData < (ps.headD []).length
  passed : m.passed = (off : ℤ).bmod (2 ^ 32)
  msgLen : m.msgLen = off + (ps.flatten.drop m.curData).length

def Unread (bytes : List Byte) (off : ℕ) (m : InMsg) : Prop :=
  ∃ ps, Reading ps off m ∧ ps.flatten.drop m.curData = bytes

theorem Reading.lt (h : Reading (b :: ps) off m) : m.curData < b.length := by
  rcases h.curData with h0 | h0
  · rw [h0]
    exact length_pos_iff.mpr (h.ne_nil b mem_cons_self)
  · exact h0

theorem Reading.page (h : Reading (b :: ps) off m) :
    ∃ page, m.pages[m.curDir]? = some page ∧ page.dEntry m.curPacket = filled b := by
  have hentries := h.entries
  rw [← zero_add m.curPacket.val, ← mul_zero safeMsgNoOfDirEntry, ← h.curDir] at hentries
  exact hentries.page

theorem addInt_bmod : addInt ((off : ℤ).bmod (2 ^ 32)) n = ((off + n : ℕ) : ℤ).bmod (2 ^ 32) := by
  rw [addInt, Int.bmod_add_bmod, cast_add]

theorem entries_consumed (h : Reading (b :: ps) off m) :
    Entries (m.setEntry m.curPacket ⟨b.length, none⟩).pages (m.curPacket + 1) ps := by
  obtain ⟨page, hpage, -⟩ := h.page
  have hcur : m.curDir < m.pages.length := (getElem?_eq_some_iff.mp hpage).1
  intro j
  rw [entryAt_setEntry hcur, h.curDir, if_neg (by omega)]
  exact h.entries.tail j

theorem incrementCurData_spec (h : Reading (b :: ps) off m) (hn : m.curData + n ≤ b.length) :
    ∃ m', m.incrementCurData n = some m' ∧
      Unread (((b :: ps).flatten.drop m.curData).drop n) (off + n) m' := by
  obtain ⟨page, hpage, hentry⟩ := h.page
  have hinc : m.incrementCurData n = (do
      let m := { m with curData := m.curData + n, passed := addInt m.passed n }
      if m.curData = b.length then
        let m := m.setEntry m.curPacket ⟨b.length, none⟩
        if m.curPacket.val + 1 = safeMsgNoOfDirEntry then
          return { m with pages := m.pages.tail, curDir := 0, curPacket := 0, curData := 0 }
        else return { m with curPacket := m.curPacket + 1, curData := 0 }
      else return m) := by
    rw [incrementCurData]
    simp [hpage, hentry, filled]
  have hpassed : addInt m.passed n = ((off + n : ℕ) : ℤ).bmod (2 ^ 32) := by
    rw [h.passed, addInt_bmod]
  have hlen := h.msgLen
  rw [length_drop] at hlen
  have hflat : (b :: ps).flatten.length = b.length + ps.flatten.length := by simp
  rw [List.drop_drop]
  by_cases hend : m.curData + n = b.length
  · have hconsumed := entries_consumed h
    have hdrop : (b :: ps).flatten.drop (m.curData + n) = ps.flatten := by
      rw [hend, flatten_cons, List.drop_left]
    have hmsgLen : m.msgLen = off + n + (ps.flatten.drop 0).length := by
      rw [List.drop_zero]
      omega
    have hne : ∀ c ∈ ps, c ≠ [] := fun c hc => h.ne_nil c (List.mem_cons_of_mem b hc)
    rw [hdrop]
    by_cases hlast : m.curPacket.val + 1 = safeMsgNoOfDirEntry
    · refine ⟨_, hinc.trans ((if_pos hend).trans (if_pos hlast)), ps, ?_, rfl⟩
      refine ⟨rfl, fun j => ?_, hne, Or.inl rfl, hpassed, hmsgLen⟩
      rw [hlast] at hconsumed
      exact (congrArg _ (zero_add j)).trans ((entryAt_tail).trans (hconsumed j))
    · refine ⟨_, hinc.trans ((if_pos hend).trans (if_neg hlast)), ps, ?_, rfl⟩
      refine ⟨h.curDir, fun j => ?_, hne, Or.inl rfl, hpassed, hmsgLen⟩
      exact (congrArg (fun k => entryAt _ (k + j)) (val_add_one hlast)).trans (hconsumed j)
  · refine ⟨_, hinc.trans (if_neg hend), b :: ps, ?_, rfl⟩
    refine ⟨h.curDir, h.entries, h.ne_nil, Or.inr ?_, hpassed, ?_⟩
    · exact lt_of_le_of_ne hn hend
    · change m.msgLen = off + n + ((b :: ps).flatten.drop (m.curData + n)).length
      rw [length_drop]
      omega

/-! ## `getn` -/

theorem getnLoop_spec {left fuel : ℕ} (h : Unread bytes off m) (hleft : left ≤ bytes.length)
    (hfuel : left ≤ fuel) : ∃ m', getnLoop fuel m left = some (bytes.take left, m') ∧
      Unread (bytes.drop left) (off + left) m' := by
  induction fuel generalizing m bytes off left with
  | zero =>
    have hzero : left = 0 := by omega
    subst hzero
    exact ⟨m, rfl, h⟩
  | succ fuel ih =>
    obtain rfl | hpos := Nat.eq_zero_or_pos left
    · exact ⟨m, rfl, h⟩
    obtain ⟨ps, hps, rfl⟩ := h
    cases ps with
    | nil =>
      rw [List.flatten_nil, List.drop_nil, length_nil] at hleft
      omega
    | cons b ps =>
      obtain ⟨page, hpage, hentry⟩ := hps.page
      have hlt := hps.lt
      let len := if left > b.length - m.curData then b.length - m.curData else left
      have hlen : len ≤ left ∧ len ≤ b.length - m.curData ∧ 0 < len := by
        simp only [len]
        split <;> omega
      obtain ⟨m1, hinc, hm1⟩ := incrementCurData_spec hps (n := len) (by omega)
      have hrest : left - len ≤ (((b :: ps).flatten.drop m.curData).drop len).length := by
        rw [length_drop]
        omega
      obtain ⟨m', hget, hm'⟩ := ih hm1 hrest (by omega)
      have hpiece : (b.drop m.curData).take len = ((b :: ps).flatten.drop m.curData).take len := by
        rw [flatten_cons, List.drop_append_of_le_length (by omega),
          List.take_append_of_le_length (by rw [length_drop]; exact hlen.2.1)]
      refine ⟨m', ?_, ?_⟩
      · obtain ⟨l, rfl⟩ : ∃ l, left = l + 1 := ⟨left - 1, by omega⟩
        rw [getnLoop]
        simp only [hpage, bind_eq_bind, bind_some, hentry, filled]
        rw [hinc]
        change (getnLoop fuel m1 (l + 1 - len)).bind _ = _
        rw [hget]
        change some ((b.drop m.curData).take len ++ _, m') = _
        rw [hpiece, ← List.take_add, Nat.add_sub_cancel' hlen.1]
        exact Nat.succ_ne_zero l
      · rw [List.drop_drop] at hm'
        rw [show off + left = off + len + (left - len) by omega]
        rwa [show len + (left - len) = left by omega] at hm'

theorem addInt_le (off n : ℕ) : addInt ((off : ℤ).bmod (2 ^ 32)) n ≤ (off + n : ℕ) := by
  rw [addInt_bmod, Int.bmod_def]
  split <;> omega

theorem getn_spec (h : Unread bytes off m) (hn : n ≤ bytes.length) :
    ∃ m', m.getn n = some (some (bytes.take n), m') ∧ Unread (bytes.drop n) (off + n) m' := by
  obtain ⟨m', hget, hm'⟩ := getnLoop_spec h hn (le_refl n)
  refine ⟨m', ?_, hm'⟩
  have hle : ¬ addInt m.passed n > m.msgLen := by
    obtain ⟨ps, hps, rfl⟩ := h
    have hadd := addInt_le off n
    rw [hps.passed, hps.msgLen]
    omega
  rw [getn, if_neg hle, hget]
  rfl

/-! ## `getPtr` -/

variable {delim : Byte} {p : ℕ}

theorem idxOf?_append (as bs : List Byte) :
    (as ++ bs).idxOf? delim = (as.idxOf? delim).or ((bs.idxOf? delim).map (· + as.length)) :=
  List.findIdx?_append

theorem Entries.next (h : Entries pages (safeMsgNoOfDirEntry * j + k) (b :: ps)) :
    (k.val + 1 = safeMsgNoOfDirEntry →
      Entries pages (safeMsgNoOfDirEntry * (j + 1) + (0 : Fin safeMsgNoOfDirEntry)) ps) ∧
    (¬ k.val + 1 = safeMsgNoOfDirEntry →
      Entries pages (safeMsgNoOfDirEntry * j + (k + 1 : Fin safeMsgNoOfDirEntry)) ps) := by
  have htail := h.tail
  constructor
  · intro hk
    rw [add_assoc, hk] at htail
    exact htail
  · intro hk
    rw [val_add_one hk]
    exact htail

theorem scan_spec {tempDir tempData fuel : ℕ} {tempPkt : Fin safeMsgNoOfDirEntry} (copy : Bool)
    (hentries : Entries m.pages (safeMsgNoOfDirEntry * tempDir + tempPkt) (b :: ps))
    (hne : ∀ c ∈ ps, c ≠ []) (hlt : tempData < b.length) (hfuel : ps.length < fuel)
    (hfound : ((b :: ps).flatten.drop tempData).idxOf? delim = some p) :
    m.scan delim fuel tempDir tempPkt tempData n copy = some (.copy (n + p)) ∨
      copy = false ∧ p < b.length - tempData ∧
        m.scan delim fuel tempDir tempPkt tempData n copy = some (.piece (n + p)) := by
  induction fuel generalizing tempDir tempPkt tempData n copy b ps p with
  | zero => omega
  | succ fuel ih =>
    obtain ⟨page, hpage, hentry⟩ := hentries.page
    have hbuf : (b.drop tempData).take (b.length - tempData) = b.drop tempData :=
      List.take_of_length_le (by rw [length_drop])
    rw [flatten_cons, List.drop_append_of_le_length (le_of_lt hlt), idxOf?_append] at hfound
    rw [scan]
    simp only [hpage, bind_eq_bind, bind_some, hentry, filled, hbuf]
    cases hfirst : (b.drop tempData).idxOf? delim with
    | some i =>
      rw [hfirst, some_or, some.injEq] at hfound
      subst hfound
      have hi : i < b.length - tempData := by
        obtain ⟨hi, -⟩ := List.idxOf?_eq_some_iff.mp hfirst
        rwa [length_drop] at hi
      by_cases hcopy : (copy || decide (n + i = b.length - tempData)) = true
      · exact Or.inl (if_pos hcopy)
      · have hfalse : copy = false := by
          cases copy
          · rfl
          · exact absurd rfl hcopy
        exact Or.inr ⟨hfalse, hi, if_neg hcopy⟩
    | none =>
      rw [hfirst] at hfound
      obtain ⟨q, hq, rfl⟩ := map_eq_some_iff.mp hfound
      cases ps with
      | nil => cases hq
      | cons c cs =>
        have hc : 0 < c.length := length_pos_iff.mpr (hne c mem_cons_self)
        have hcs : ∀ d ∈ cs, d ≠ [] := fun d hd => hne d (List.mem_cons_of_mem c hd)
        have hsum : n + (q + (b.drop tempData).length) = n + (b.length - tempData) + q := by
          rw [length_drop]
          omega
        rw [List.length_cons] at hfuel
        rw [hsum]
        -- the rest is always copied
        refine Or.inl ?_
        by_cases hlast : tempPkt.val + 1 = safeMsgNoOfDirEntry
        · have hnext := hentries.next.1 hlast
          obtain ⟨page', hpage', -⟩ := hnext.page
          have hdir : tempDir + 1 < m.pages.length := (getElem?_eq_some_iff.mp hpage').1
          simp only [if_pos hlast, if_pos hdir]
          exact (ih true hnext hcs hc (by omega) hq).resolve_right fun h => Bool.noConfusion h.1
        · have hnext := hentries.next.2 hlast
          obtain ⟨page', hpage', hentry'⟩ := hnext.page
          rw [hpage] at hpage'
          cases hpage'
          have hgram : ¬ (page.dEntry (tempPkt + 1)).dGram = none := by
            rw [hentry']
            exact some_ne_none _
          simp only [if_neg hlast, if_neg hgram]
          exact (ih true hnext hcs hc (by omega) hq).resolve_right fun h => Bool.noConfusion h.1

theorem length_le_of_entries (h : Entries pages i ps) :
    ps.length ≤ safeMsgNoOfDirEntry * pages.length := by
  by_contra hlt
  have hlt : safeMsgNoOfDirEntry * pages.length < ps.length := Nat.lt_of_not_le hlt
  have hentry := h (safeMsgNoOfDirEntry * pages.length)
  rw [getElem?_eq_getElem hlt, entryAt, Paged.lookup, getElem?_eq_none] at hentry
  · exact absurd (congrArg DEntry.dGram hentry) (some_ne_none _).symm
  · rw [length_map, Nat.le_div_iff_mul_le (by decide), Nat.mul_comm]
    exact Nat.le_add_left _ _

theorem getPtr_spec (h : Unread bytes off m) (hfound : bytes.idxOf? delim = some p)
    (hint : p + 1 < 2 ^ 31) : ∃ m', m.getPtr delim = some (some (bytes.take (p + 1)), m') ∧
      Unread (bytes.drop (p + 1)) (off + (p + 1)) m' := by
  obtain ⟨hp, -⟩ := List.idxOf?_eq_some_iff.mp hfound
  have hunread := h
  obtain ⟨ps, hps, rfl⟩ := h
  cases ps with
  | nil =>
    rw [List.flatten_nil, List.drop_nil] at hfound
    cases hfound
  | cons b ps =>
    have hlt := hps.lt
    have hentries := hps.entries
    have hfuel := length_le_of_entries hentries
    rw [List.length_cons] at hfuel
    rw [← zero_add m.curPacket.val, ← mul_zero safeMsgNoOfDirEntry, ← hps.curDir] at hentries
    have hscanFuel : ps.length < m.scanFuel := by
      unfold scanFuel
      omega
    rcases scan_spec false hentries (fun c hc => hps.ne_nil c (List.mem_cons_of_mem b hc))
      hlt hscanFuel
      hfound with
      hscan | ⟨-, hpiece, hscan⟩
    · obtain ⟨m', hget, hm'⟩ := getn_spec hunread hp
      refine ⟨m', ?_, hm'⟩
      rw [getPtr, hscan]
      simp only [bind_eq_bind, bind_some, add_comm 1 p, if_pos hint, hget]
    · obtain ⟨page, hpage, hentry⟩ := hps.page
      obtain ⟨m', hinc, hm'⟩ := incrementCurData_spec hps (n := p + 1) (by omega)
      refine ⟨m', ?_, hm'⟩
      rw [getPtr, hscan]
      simp only [bind_eq_bind, bind_some, add_comm 1 p, hpage, hentry, hinc]
      rw [flatten_cons, List.drop_append_of_le_length (le_of_lt hlt),
        List.take_append_of_le_length (by rw [length_drop]; exact hpiece)]
      rfl

/-! ## Calls one after the other -/

theorem sum_bodyAt :
    ∑ i ∈ Finset.range bodies.length, (bodyAt bodies i).length = bodies.flatten.length := by
  induction bodies with
  | nil => rfl
  | cons b bodies ih =>
    rw [List.length_cons, Finset.sum_range_succ', flatten_cons, List.length_append, ← ih, add_comm]
    rfl

theorem Collects.unread (hb : Bodies bodies)
    (h : Collects bodies (Finset.range bodies.length) m) : Unread bodies.flatten 0 m := by
  refine ⟨bodies, ⟨h.start rfl, ?_, hb.ne_nil, Or.inl h.curData, h.passed,
    ?_⟩, by rw [h.curData]; rfl⟩
  · intro j
    have hzero : (m.curPacket : ℕ) + j = j := by
      rw [h.curPacket]
      exact Nat.zero_add j
    rw [hzero, h.entry]
    by_cases hj : j < bodies.length
    · rw [if_pos (Finset.mem_range.mpr hj), getElem?_eq_getElem hj, bodyAt,
        List.getD_eq_getElem _ _ hj]
      rfl
    · rw [if_neg (fun hmem => hj (Finset.mem_range.mp hmem)),
        getElem?_eq_none (Nat.le_of_not_lt hj)]
      rfl
  · rw [h.msgLen, sum_bodyAt, h.curData, Nat.zero_add, List.drop_zero]

end InMsg

/-- A call that reads. -/
inductive Read where
  | getn (size : ℕ)
  | getPtr (delim : Byte)
deriving DecidableEq

/-- What a call is to give of bytes and to leave of them; the number of bytes is an `int`. -/
def Read.of (bytes : List Byte) : Read → Option (List Byte × List Byte)
  | getn size => if size ≤ bytes.length then some (bytes.take size, bytes.drop size) else none
  | getPtr delim => do
    let i ← bytes.idxOf? delim
    if i + 1 < 2 ^ 31 then some (bytes.take (i + 1), bytes.drop (i + 1)) else none

def Read.allOf : List Byte → List Read → Option (List (List Byte) × List Byte)
  | bytes, [] => some ([], bytes)
  | bytes, call :: calls => do
    let (piece, bytes) ← call.of bytes
    let (pieces, left) ← allOf bytes calls
    return (piece :: pieces, left)

namespace InMsg

variable {m : InMsg} {bytes : List Byte} {off : ℕ}

def read (m : InMsg) : Read → Option (Option (List Byte) × InMsg)
  | .getn size => m.getn size
  | .getPtr delim => m.getPtr delim

def reads : InMsg → List Read → Option (List (Option (List Byte)) × InMsg)
  | m, [] => some ([], m)
  | m, call :: calls => do
    let (piece, m) ← m.read call
    let (pieces, m) ← reads m calls
    return (piece :: pieces, m)

theorem read_spec (h : Unread bytes off m) {call : Read} {piece left : List Byte}
    (hcall : call.of bytes = some (piece, left)) :
    ∃ m' off', m.read call = some (some piece, m') ∧ Unread left off' m' ∧
      piece ++ left = bytes := by
  cases call with
  | getn size =>
    rw [Read.of] at hcall
    by_cases hsize : size ≤ bytes.length
    · rw [if_pos hsize] at hcall
      cases hcall
      obtain ⟨m', hget, hm'⟩ := getn_spec h hsize
      exact ⟨m', _, hget, hm', List.take_append_drop _ _⟩
    · rw [if_neg hsize] at hcall
      cases hcall
  | getPtr delim =>
    obtain ⟨i, hi, hcall⟩ := bind_eq_some_iff.mp hcall
    by_cases hint : i + 1 < 2 ^ 31
    · rw [if_pos hint] at hcall
      cases hcall
      obtain ⟨m', hget, hm'⟩ := getPtr_spec h hi hint
      exact ⟨m', _, hget, hm', List.take_append_drop _ _⟩
    · rw [if_neg hint] at hcall
      cases hcall

theorem reads_spec (h : Unread bytes off m) {calls : List Read} {pieces : List (List Byte)}
    {left : List Byte} (hcalls : Read.allOf bytes calls = some (pieces, left)) :
    pieces.flatten ++ left = bytes ∧ ∃ m', m.reads calls = some (pieces.map some, m') := by
  induction calls generalizing m bytes off pieces with
  | nil =>
    cases hcalls
    exact ⟨rfl, m, rfl⟩
  | cons call calls ih =>
    obtain ⟨⟨piece, bytes1⟩, hcall, hcalls⟩ := bind_eq_some_iff.mp hcalls
    obtain ⟨⟨pieces1, left1⟩, hrest, hcalls⟩ := bind_eq_some_iff.mp hcalls
    cases hcalls
    obtain ⟨m1, off1, hread, hm1, hsplit⟩ := read_spec h hcall
    obtain ⟨hflat, m', hreads⟩ := ih hm1 hrest
    refine ⟨by rw [flatten_cons, List.append_assoc, hflat, hsplit], m', ?_⟩
    rw [reads, hread]
    simp only [bind_eq_bind, bind_some, hreads]
    rfl

end InMsg

/-! ## What is put -/

def FragmentSize (size : ℤ) : Prop := 26 ≤ size ∧ size ≤ 59974

/-- A packet holds no more than it may. -/
structure OutPacket.Ok (p : OutPacket) : Prop where
  fragmentSize : FragmentSize p.fragmentSize
  desired : FragmentSize p.desiredFragmentSize
  fits : (p.data.length : ℤ) ≤ p.usablePacketSize

/-- The packets hold what was put, and only a message without bytes has an empty one. -/
structure OutMsg.Ok (bytes : List Byte) (o : OutMsg) : Prop where
  bytes : (o.packets.map (·.data)).flatten = bytes
  packets : ∀ p ∈ o.packets, p.Ok
  init : ∀ p ∈ o.init, p.data ≠ []
  last : o.init ≠ [] → o.lastPacket.data ≠ []

theorem OutPacket.new_ok : ({} : OutPacket).Ok :=
  ⟨⟨by decide, by decide⟩, ⟨by decide, by decide⟩, by decide⟩

theorem fragmentSize_sanitizedMTU (mtu : ℤ) : FragmentSize (sanitizedMTU mtu) := by
  simp only [FragmentSize, sanitizedMTU, safeMsgHeaderSize, safeMsgMaxPacketSize]
  split_ifs <;> omega

theorem OutPacket.data_setMTU (p : OutPacket) (mtu : ℤ) : (p.setMTU mtu).data = p.data := by
  rw [setMTU]
  split_ifs <;> rfl

theorem OutPacket.Ok.setMTU {p : OutPacket} (h : p.Ok) (mtu : ℤ) : (p.setMTU mtu).Ok := by
  have hsize := fragmentSize_sanitizedMTU mtu
  rw [OutPacket.setMTU]
  split_ifs with hne hempty
  · refine ⟨hsize, hsize, ?_⟩
    have hnil : p.data = [] := by simpa [OutPacket.empty] using hempty
    have hbound := hsize.1
    simp only [OutPacket.usablePacketSize, hnil, safeMsgHeaderSize, length_nil]
    omega
  · exact ⟨h.fragmentSize, hsize, h.fits⟩
  · exact h

theorem OutPacket.Ok.putMax {p : OutPacket} (h : p.Ok) (hfull : p.full = false) {dta : List Byte}
    (hdta : dta ≠ []) : 0 < (p.putMax dta).1 ∧ (p.putMax dta).2.Ok ∧
      (p.putMax dta).2.data = p.data ++ dta.take (p.putMax dta).1 := by
  have hfits := h.fits
  have hne : (p.data.length : ℤ) ≠ p.usablePacketSize := by simpa [OutPacket.full] using hfull
  have hpos : 0 < dta.length := length_pos_iff.mpr hdta
  refine ⟨?_, ⟨h.fragmentSize, h.desired, ?_⟩, rfl⟩
  · simp only [OutPacket.putMax]
    split_ifs <;> omega
  · change (((p.data ++ dta.take _).length : ℕ) : ℤ) ≤ p.usablePacketSize
    rw [List.length_append, List.length_take]
    split_ifs <;> omega

namespace OutMsg

variable {o : OutMsg} {bytes dta : List Byte} {fs : List Fragment}

theorem flatten_packets :
    (o.packets.map (·.data)).flatten = (o.init.map (·.data)).flatten ++ o.lastPacket.data := by
  simp [OutMsg.packets]

section

variable (h : o.Ok bytes)
include h

theorem Ok.lastPacket : o.lastPacket.Ok :=
  h.packets _ (List.mem_append_right _ mem_cons_self)

theorem Ok.addIfFull :
    ((o.addIfFull.packets.map (·.data)).flatten = bytes ∧ ∀ p ∈ o.addIfFull.packets, p.Ok) ∧
      (∀ p ∈ o.addIfFull.init, p.data ≠ []) ∧ o.addIfFull.lastPacket.full = false := by
  have hlast := h.lastPacket
  by_cases hfull : o.lastPacket.full = true
  · have hdata : (OutPacket.setMTU {} o.mtu).data = [] := OutPacket.data_setMTU {} o.mtu
    have hnew := OutPacket.new_ok.setMTU o.mtu
    have hlen : (o.lastPacket.data.length : ℤ) = o.lastPacket.usablePacketSize := by
      simpa [OutPacket.full] using hfull
    rw [OutMsg.addIfFull, if_pos hfull]
    refine ⟨⟨?_, ?_⟩, ?_, ?_⟩
    · rw [flatten_packets, hdata, List.append_nil]
      exact h.bytes
    · intro p hp
      rcases mem_append.mp hp with hp | hp
      · exact h.packets p hp
      · rw [mem_singleton.mp hp]
        exact hnew
    · intro p hp
      rcases mem_append.mp hp with hp | hp
      · exact h.init p hp
      · rw [mem_singleton.mp hp]
        intro hnil
        have hbound := hlast.fragmentSize.1
        rw [hnil] at hlen
        simp only [OutPacket.usablePacketSize, safeMsgHeaderSize, length_nil] at hlen
        omega
    · have hbound := hnew.fragmentSize.1
      rw [OutPacket.full, decide_eq_false_iff_not, hdata]
      simp only [OutPacket.usablePacketSize, safeMsgHeaderSize, length_nil]
      omega
  · rw [OutMsg.addIfFull, if_neg hfull]
    exact ⟨⟨h.bytes, h.packets⟩, h.init, by simpa using hfull⟩

theorem Ok.putnLoop {fuel : ℕ} (hfuel : dta.length ≤ fuel) :
    ∃ o', OutMsg.putnLoop fuel o dta = some o' ∧ o'.Ok (bytes ++ dta) := by
  induction fuel generalizing o bytes dta with
  | zero =>
    cases dta with
    | nil => exact ⟨o, rfl, by rwa [List.append_nil]⟩
    | cons c dta => exact absurd hfuel (by simp)
  | succ fuel ih =>
    cases hd : dta with
    | nil => exact ⟨o, rfl, by rwa [List.append_nil]⟩
    | cons c cs =>
      have hdta : dta ≠ [] := by simp [hd]
      obtain ⟨⟨hbytes, hpackets⟩, hinit, hfull⟩ := h.addIfFull
      have hok : o.addIfFull.lastPacket.Ok :=
        hpackets _ (List.mem_append_right _ mem_cons_self)
      obtain ⟨hpos, hput, hdata⟩ := hok.putMax hfull hdta
      rw [← hd, OutMsg.putnLoop]
      · have hstep : Ok (bytes ++ dta.take (o.addIfFull.lastPacket.putMax dta).1)
            { o.addIfFull with lastPacket := (o.addIfFull.lastPacket.putMax dta).2 } := by
          refine ⟨?_, ?_, hinit, fun _ hnil => ?_⟩
          · rw [flatten_packets] at hbytes ⊢
            rw [hdata, ← List.append_assoc, hbytes]
          · intro p hp
            rcases mem_append.mp hp with hp | hp
            · exact hpackets p (List.mem_append_left _ hp)
            · rw [mem_singleton.mp hp]
              exact hput
          · change (o.addIfFull.lastPacket.putMax dta).2.data = [] at hnil
            have hlen := congrArg List.length (hdata.symm.trans hnil)
            have hdlen := length_pos_iff.mpr hdta
            rw [List.length_append, List.length_take, length_nil] at hlen
            omega
        have hless : (dta.drop (o.addIfFull.lastPacket.putMax dta).1).length ≤ fuel := by
          rw [length_drop]
          omega
        obtain ⟨o', hloop, ho'⟩ := ih hstep hless
        refine ⟨o', hloop, ?_⟩
        rwa [List.append_assoc, List.take_append_drop] at ho'
      · exact fun h => absurd h hdta

theorem Ok.setMTU (mtu : ℤ) : (o.setMTU mtu).Ok bytes := by
  have hdata := data_setMTU o.lastPacket mtu
  refine ⟨?_, ?_, h.init, fun hne => ?_⟩
  · rw [← h.bytes, flatten_packets, flatten_packets]
    exact congrArg _ hdata
  · intro p hp
    rcases mem_append.mp hp with hp | hp
    · exact h.packets p (List.mem_append_left _ hp)
    · rw [mem_singleton.mp hp]
      exact h.lastPacket.setMTU mtu
  · exact hdata.symm ▸ h.last hne

theorem Ok.ne_nil (hinit : o.init ≠ []) : ∀ p ∈ o.packets, p.data ≠ [] := by
  intro p hp
  rcases mem_append.mp hp with hp | hp
  · exact h.init p hp
  · rw [mem_singleton.mp hp]
    exact h.last hinit

theorem Ok.init_of_empty {head : OutPacket} {rest : List OutPacket}
    (hpackets : o.packets = head :: rest) (hempty : head.empty = true) :
    o.init = [] ∧ o.lastPacket.data = [] := by
  have hnil : head.data = [] := by simpa [empty] using hempty
  have hinit : o.init = [] := by
    by_contra hne
    exact h.ne_nil hne head (hpackets ▸ mem_cons_self) hnil
  refine ⟨hinit, ?_⟩
  rw [OutMsg.packets, hinit] at hpackets
  cases hpackets
  exact hnil

end

theorem sendMsg_long (hlong : o.sendMsg.1 = .long fs) :
    o.init ≠ [] ∧ fs = fragments (o.packets.map (·.data)) := by
  rw [OutMsg.sendMsg] at hlong
  split at hlong
  · cases hlong
  · split_ifs at hlong with hempty hinit
    cases hlong
    exact ⟨hinit, rfl⟩

theorem Ok.bodies (h : o.Ok bytes) (hlong : o.sendMsg.1 = .long fs) (hfew : fs.length < 2 ^ 16) :
    ∃ bodies, Bodies bodies ∧ bodies.flatten = bytes ∧ fs = fragments bodies := by
  obtain ⟨hinit, rfl⟩ := sendMsg_long hlong
  refine ⟨_, ⟨?_, ?_, ?_, ?_⟩, h.bytes, rfl⟩
  · have hpos := length_pos_iff.mpr hinit
    rw [length_map, OutMsg.packets, List.length_append, List.length_singleton]
    omega
  · rwa [fragments, List.length_mapIdx] at hfew
  · intro b hb
    obtain ⟨p, hp, rfl⟩ := mem_map.mp hb
    exact h.ne_nil hinit p hp
  · intro b hb
    obtain ⟨p, hp, rfl⟩ := mem_map.mp hb
    have hok := h.packets p hp
    have hfits := hok.fits
    have hbound := hok.fragmentSize.2
    rw [usablePacketSize, safeMsgHeaderSize] at hfits
    omega

theorem Ok.sendMsg (h : o.Ok bytes) : o.sendMsg.2.Ok [] := by
  have hnew : Ok [] { o with init := [], lastPacket := o.lastPacket.reset } := by
    have hdesired := h.lastPacket.desired
    refine ⟨rfl, ?_, nofun, fun hne => absurd rfl hne⟩
    intro p hp
    rw [mem_singleton.mp hp]
    refine ⟨hdesired, hdesired, ?_⟩
    have hbound := hdesired.1
    simp only [usablePacketSize, reset, safeMsgHeaderSize, length_nil]
    omega
  rw [OutMsg.sendMsg]
  split
  · next hpackets => exact absurd hpackets (by simp [OutMsg.packets])
  · next head rest hpackets =>
    split_ifs with hempty
    · obtain ⟨hinit, hlast⟩ := h.init_of_empty hpackets hempty
      have hbytes := h.bytes
      rw [flatten_packets, hinit, hlast] at hbytes
      subst hbytes
      exact h
    · exact hnew
    · exact hnew

end OutMsg

inductive Write where
  | putn (dta : List Byte)
  | setMTU (mtu : ℤ)
  | sendMsg
deriving DecidableEq

/-- A message after calls, and the bytes that were put since the last one was sent. -/
def OutMsg.run : OutMsg × List Byte → List Write → Option (OutMsg × List Byte)
  | s, [] => some s
  | s, .putn dta :: calls => do
    let o ← s.1.putn dta
    run (o, s.2 ++ dta) calls
  | s, .setMTU mtu :: calls => run (s.1.setMTU mtu, s.2) calls
  | s, .sendMsg :: calls => run (s.1.sendMsg.2, []) calls

theorem OutMsg.run_ok {s : OutMsg × List Byte} (h : s.1.Ok s.2) (calls : List Write) :
    ∃ s', run s calls = some s' ∧ s'.1.Ok s'.2 := by
  induction calls generalizing s with
  | nil => exact ⟨s, rfl, h⟩
  | cons call calls ih =>
    cases call with
    | putn dta =>
      obtain ⟨o, hput, ho⟩ := h.putnLoop (le_refl dta.length)
      obtain ⟨s', hrun, hs'⟩ := ih (s := (o, s.2 ++ dta)) ho
      exact ⟨s', bind_eq_some_iff.mpr ⟨o, hput, hrun⟩, hs'⟩
    | setMTU mtu => exact ih (h.setMTU mtu)
    | sendMsg => exact ih h.sendMsg

/-! ## Messages -/

section Arrivals

variable {bodies : List (List Byte)} {fs : List Fragment}

theorem arrivals_numbers (hb : Bodies bodies) (hfs : ∀ f ∈ fs, f ∈ OutMsg.fragments bodies) :
    ∃ is : List ℕ, (∀ i ∈ is, i < bodies.length) ∧ fs = is.map (InMsg.fragmentAt bodies) := by
  refine ⟨fs.map (·.seq), ?_, ?_⟩
  · intro i hi
    obtain ⟨f, hf, rfl⟩ := mem_map.mp hi
    obtain ⟨j, hj, rfl⟩ := (mem_fragments hb).mp (hfs f hf)
    exact hj
  · rw [List.map_map]
    refine (List.map_id fs).symm.trans (List.map_congr_left fun f hf => ?_)
    obtain ⟨i, -, rfl⟩ := (mem_fragments hb).mp (hfs f hf)
    rfl

theorem subset_iff_range (hb : Bodies bodies) (is : List ℕ) (his : ∀ i ∈ is, i < bodies.length) :
    OutMsg.fragments bodies ⊆ is.map (InMsg.fragmentAt bodies) ↔
      is.toFinset = Finset.range bodies.length := by
  constructor
  · intro hsub
    apply Finset.ext
    intro i
    rw [List.mem_toFinset, Finset.mem_range]
    refine ⟨his i, fun hi => ?_⟩
    obtain ⟨j, hj, heq⟩ := mem_map.mp (hsub ((mem_fragments hb).mpr ⟨i, hi, rfl⟩))
    have hji : j = i := congrArg Fragment.seq heq
    exact hji ▸ hj
  · intro hall f hf
    obtain ⟨i, hi, rfl⟩ := (mem_fragments hb).mp hf
    refine mem_map.mpr ⟨i, ?_, rfl⟩
    rw [← List.mem_toFinset, hall]
    exact Finset.mem_range.mpr hi

end Arrivals

/-- **Whatever the sizes and the order of the packets**, the message is complete with the last one
that was missing, and is read piece by piece. -/
theorem message_reassembled (writes : List Write) :
    ∃ o bytes, OutMsg.run ({}, []) writes = some (o, bytes) ∧
      ∀ fs, o.sendMsg.1 = .long fs → fs.length < 2 ^ 16 →
      ∀ first rest, first ∈ fs → rest ⊆ fs →
      ∃ m answers m', InMsg.new first = some m ∧ m.addPackets rest = some (answers, m') ∧
        answers.length = rest.length ∧
        (∀ k < rest.length, answers[k]? = some true ↔
          fs ⊆ first :: rest.take (k + 1) ∧ ¬ fs ⊆ first :: rest.take k) ∧
        (fs ⊆ first :: rest → ∀ calls pieces left, Read.allOf bytes calls = some (pieces, left) →
          pieces.flatten ++ left = bytes ∧
          ∃ m'', m'.reads calls = some (pieces.map some, m'')) := by
  have hnew : OutMsg.Ok [] {} := by
    refine ⟨rfl, ?_, nofun, fun hne => absurd rfl hne⟩
    intro p hp
    rw [mem_singleton.mp hp]
    exact new_ok
  obtain ⟨⟨o, bytes⟩, hrun, ho⟩ := OutMsg.run_ok (s := ({}, [])) hnew writes
  refine ⟨o, bytes, hrun, fun fs hlong hfew first rest hfirst hrest => ?_⟩
  obtain ⟨bodies, hb, rfl, rfl⟩ := ho.bodies hlong hfew
  obtain ⟨is, his, harrivals⟩ := arrivals_numbers hb
    (List.forall_mem_cons.mpr ⟨hfirst, hrest⟩)
  cases is with
  | nil => cases harrivals
  | cons i is =>
    obtain ⟨hi, his⟩ := List.forall_mem_cons.mp his
    obtain ⟨rfl, rfl⟩ := List.cons.inj harrivals
    obtain ⟨m, hm, hcollects⟩ := InMsg.new_collects hb hi
    obtain ⟨answers, m', hadd, hm', hlen, hanswers⟩ := InMsg.addPackets_spec hb hcollects his
    have hcome : ∀ js : List ℕ, (∀ j ∈ js, j < bodies.length) →
        (OutMsg.fragments bodies ⊆ InMsg.fragmentAt bodies i :: js.map (InMsg.fragmentAt bodies) ↔
          {i} ∪ js.toFinset = Finset.range bodies.length) := by
      intro js hjs
      have hsub := subset_iff_range hb (i :: js) (List.forall_mem_cons.mpr ⟨hi, hjs⟩)
      rwa [List.toFinset_cons] at hsub
    refine ⟨m, answers, m', hm, hadd, by rw [hlen, length_map], ?_, ?_⟩
    · intro k hk
      rw [length_map] at hk
      rw [hanswers k hk, some.injEq, decide_eq_true_iff, ← List.map_take, ← List.map_take,
        hcome _ fun j hj => his j (List.mem_of_mem_take hj),
        hcome _ fun j hj => his j (List.mem_of_mem_take hj)]
    · intro hall calls pieces left hcalls
      rw [(hcome _ his).mp hall] at hm'
      exact InMsg.reads_spec (hm'.unread hb) hcalls

/-- Five bytes in three packets, which come as the last, the first, the last and the second one. -/
theorem message_reassembled_five : ∃ m answers m', InMsg.new ⟨true, 2, 1, [5]⟩ = some m ∧
      m.addPackets [⟨false, 0, 2, [1, 2]⟩, ⟨true, 2, 1, [5]⟩, ⟨false, 1, 2, [3, 4]⟩] =
        some (answers, m') ∧
      answers[2]? = some true ∧ answers[1]? ≠ some true ∧
      ∃ m'', m'.reads [.getn 1, .getPtr 4, .getPtr 5] = some ([some [1], some [2, 3, 4], some [5]],
      m'') := by
  obtain ⟨o, bytes, hrun, h⟩ := message_reassembled [.setMTU 27, .putn [1, 2, 3, 4, 5]]
  cases hrun
  obtain ⟨m, answers, m', hm, hadd, -, hanswers, hreads⟩ :=
    h [⟨false, 0, 2, [1, 2]⟩, ⟨false, 1, 2, [3, 4]⟩, ⟨true, 2, 1, [5]⟩] (by decide) (by decide)
      ⟨true, 2, 1, [5]⟩ [⟨false, 0, 2, [1, 2]⟩, ⟨true, 2, 1, [5]⟩, ⟨false, 1, 2, [3, 4]⟩]
      (by decide) (by decide)
  refine ⟨m, answers, m', hm, hadd, (hanswers 2 (by decide)).mpr (by decide), ?_, ?_⟩
  · rw [Ne, hanswers 1 (by decide)]
    decide
  · exact (hreads (by decide) _ [[1], [2, 3, 4], [5]] [] (by decide)).2

end Condor.Cedar
