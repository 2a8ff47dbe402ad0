import Condor.Security.IpVerify

/-!
# Authorization — the rule

A request is granted a permission if no entry of its `DENY` list matches and an entry of its `ALLOW`
list does, or else if a permission that implies it is granted. Whatever is in the table of the
results, `Verify` answers by this rule, and by the holes.

* `AclEntry`, `settingMatches`, **`Granted`**: the rule;
* **`verifyLevels_granted`**, `verify_granted`: the answer of `Verify`.
-/

namespace Condor.Authorization

open List Option Bool

variable (E : Env) (cfg : Config) {a d : Bool}

/-! ## The rule -/

/-- An entry of a list: a user at a host, or a netgroup. -/
inductive AclEntry where
  | user (host item : Text)
  | netgroup (group : Text)
deriving DecidableEq, Repr

def tokenEntries (entry : Text) : List AclEntry :=
  let (host, user) := splitEntry E entry
  if user = netgroupDetected then [.netgroup host]
  else (expandHostAddresses E host).map fun h => .user h user

def aclEntries (setting : Option Text) : List AclEntry :=
  (setting.elim [] tokens).flatMap (tokenEntries E)

def AclEntry.isMatch (who : Text) (peer : Peer) : AclEntry → Bool
  | .user host item => hostMatches E host peer && E.matchesAnycaseWithWildcard item who
  | .netgroup group => inNetgroup E who peer group

def peersOf (sin6 : BitVec 128) : List Peer :=
  .ip (E.ipString sin6) :: (E.hostnameWithAlias sin6).map .hostname

/-- An entry of the setting matches the request, by the address or by one of its names. -/
def settingMatches (setting : Option Text) (sin6 : BitVec 128) (who : Text) : Bool :=
  isEveryone setting ||
    (peersOf E sin6).any fun peer => (aclEntries E setting).any (AclEntry.isMatch E who peer)

def denied (sin6 : BitVec 128) (who : Text) (perm : DCpermission) : Bool :=
  settingMatches E (cfg.setting cfg.denySetting perm) sin6 who

def allowed (sin6 : BitVec 128) (who : Text) (perm : DCpermission) : Bool :=
  settingMatches E (cfg.setting cfg.allowSetting perm) sin6 who

/-- **The rule.** -/
inductive Granted (sin6 : BitVec 128) (who : Text) : DCpermission → Prop
  | entry {perm : DCpermission} (hdeny : denied E cfg sin6 who perm = false)
      (hallow : allowed E cfg sin6 who perm = true) : Granted sin6 who perm
  | implied {perm parent : DCpermission} (hdeny : denied E cfg sin6 who perm = false)
      (hallow : allowed E cfg sin6 who perm = false) (hnext : parent.nextImplied = some perm)
      (hparent : Granted sin6 who parent) : Granted sin6 who perm

variable {E cfg} {sin6 : BitVec 128} {who : Text} {perm : DCpermission}

theorem granted_iff : Granted E cfg sin6 who perm ↔
    denied E cfg sin6 who perm = false ∧ (allowed E cfg sin6 who perm = true ∨
      allowed E cfg sin6 who perm = false ∧
        ∃ parent, parent.nextImplied = some perm ∧ Granted E cfg sin6 who parent) := by
  constructor
  · rintro (⟨hdeny, hallow⟩ | ⟨hdeny, hallow, hnext, hparent⟩)
    · exact ⟨hdeny, .inl hallow⟩
    · exact ⟨hdeny, .inr ⟨hallow, _, hnext, hparent⟩⟩
  · rintro ⟨hdeny, hallow | ⟨hallow, parent, hnext, hparent⟩⟩
    · exact .entry hdeny hallow
    · exact .implied hdeny hallow hnext hparent

variable {parent : DCpermission}
  {f : IpVerify → DCpermission → Reasons → Option (IpVerify × Bool × Reasons)}

theorem mem_directlyImpliedBy :
    parent ∈ perm.directlyImpliedBy ↔ parent.nextImplied = some perm := by
  have hall : parent ∈ DCpermission.all := by cases parent <;> decide
  simp [DCpermission.directlyImpliedBy, hall]

/-! ## The tables -/

theorem usersMatch_iff {users : UserHash} {peer : Peer} : (users.entries.any fun e =>
        hostMatches E e.1 peer && e.2.any fun item => E.matchesAnycaseWithWildcard item who) =
        true ↔
      ∃ host us, users.lookup host = some us ∧ hostMatches E host peer = true ∧
        ∃ u ∈ us, E.matchesAnycaseWithWildcard u who = true := by
  simp only [List.any_eq_true, and_eq_true]
  constructor
  · rintro ⟨⟨host, us⟩, hmem, hhost, hus⟩
    exact ⟨host, us, AList.mem_lookup_iff.mpr hmem, hhost, hus⟩
  · rintro ⟨host, us, hlook, hhost, hus⟩
    exact ⟨⟨host, us⟩, AList.mem_lookup_iff.mp hlook, hhost, hus⟩

section

variable (users : UserHash) (netgroups : List Text)
include users netgroups

theorem lookupUser_addUser (user host : Text) (peer : Peer) :
    lookupUser E (addUser users user host) netgroups who peer =
      (lookupUser E users netgroups who peer || AclEntry.isMatch E who peer (.user host user)) := by
  rw [Bool.eq_iff_iff]
  simp only [lookupUser, Bool.or_eq_true, usersMatch_iff, AclEntry.isMatch,
    Bool.and_eq_true, addUser]
  constructor
  · rintro (⟨host', us, hlook, hhost, u, hu, hmatch⟩ | hgroup)
    · by_cases he : host' = host
      · subst he
        rw [AList.lookup_insert, some.injEq] at hlook
        subst hlook
        rcases mem_append.mp hu with hu | hu
        · cases hold : users.lookup host' with
          | none => simp [hold] at hu
          | some us =>
            rw [hold] at hu
            exact .inl (.inl ⟨host', us, hold, hhost, u, hu, hmatch⟩)
        · rw [mem_singleton.mp hu] at hmatch
          exact .inr ⟨hhost, hmatch⟩
      · rw [AList.lookup_insert_ne he] at hlook
        exact .inl (.inl ⟨host', us, hlook, hhost, u, hu, hmatch⟩)
    · exact .inl (.inr hgroup)
  · rintro ((⟨host', us, hlook, hhost, u, hu, hmatch⟩ | hgroup) | ⟨hhost, hmatch⟩)
    · left
      by_cases he : host' = host
      · subst he
        refine ⟨host', _, AList.lookup_insert _, hhost, u, ?_, hmatch⟩
        rw [hlook]
        exact mem_append_left _ hu
      · exact ⟨host', us, (AList.lookup_insert_ne he).trans hlook, hhost, u, hu, hmatch⟩
    · exact .inr hgroup
    · exact .inl ⟨host, _, AList.lookup_insert _, hhost, user, by simp, hmatch⟩

theorem lookupUser_addUsers (user : Text) (hosts : List Text) (peer : Peer) :
    lookupUser E (hosts.foldl (fun users h => addUser users user h) users) netgroups who peer =
      (lookupUser E users netgroups who peer ||
        (hosts.map fun h => AclEntry.user h user).any (AclEntry.isMatch E who peer)) := by
  induction hosts generalizing users with
  | nil => simp
  | cons h hosts ih =>
    rw [foldl_cons, ih, lookupUser_addUser, map_cons, any_cons, Bool.or_assoc]

theorem lookupUser_addNetgroup (group : Text) (peer : Peer) :
    lookupUser E users (netgroups ++ [group]) who peer =
      (lookupUser E users netgroups who peer || AclEntry.isMatch E who peer (.netgroup group)) := by
  simp [lookupUser, AclEntry.isMatch, Bool.or_assoc]

end

/-- The list of the kind that is asked for, of the two in a table. -/
def lookupUserOf (E : Env) (allow : Bool) (pentry : PermTypeEntry) (who : Text) (peer : Peer) :
    Bool :=
  if allow then lookupUserAllow E pentry who peer else lookupUserDeny E pentry who peer

theorem lookupUserOf_addEntry (allow kind : Bool) (pentry : PermTypeEntry) (entry : Text)
    (peer : Peer) :
    lookupUserOf E kind (addEntry E allow pentry entry) who peer =
      (lookupUserOf E kind pentry who peer ||
        (kind == allow && (tokenEntries E entry).any (AclEntry.isMatch E who peer))) := by
  unfold addEntry tokenEntries
  dsimp only
  split_ifs <;> cases kind <;>
    simp_all [lookupUserOf, lookupUserAllow, lookupUserDeny, lookupUser_addUsers,
      lookupUser_addNetgroup]

theorem behavior_addEntry (allow : Bool) (pentry : PermTypeEntry) (entry : Text) :
    (addEntry E allow pentry entry).behavior = pentry.behavior := by
  unfold addEntry
  dsimp only
  split_ifs <;> rfl

/-- **A filled table** matches by the entries of the list, and by what it has had. -/
theorem lookupUserOf_fillTable (allow kind : Bool) (pentry : PermTypeEntry) (list : Text)
    (peer : Peer) :
    lookupUserOf E kind (fillTable E pentry list allow) who peer =
      (lookupUserOf E kind pentry who peer ||
        (kind == allow && (aclEntries E (some list)).any (AclEntry.isMatch E who peer))) := by
  unfold fillTable aclEntries
  rw [elim_some]
  induction tokens list generalizing pentry with
  | nil => simp
  | cons t ts ih =>
    rw [foldl_cons, ih, lookupUserOf_addEntry]
    cases kind == allow <;> simp [Bool.or_assoc]

theorem behavior_fillTable (pentry : PermTypeEntry) (list : Text) (allow : Bool) :
    (fillTable E pentry list allow).behavior = pentry.behavior := by
  unfold fillTable
  induction tokens list generalizing pentry with
  | nil => rfl
  | cons t ts ih => rw [foldl_cons, ih, behavior_addEntry]

theorem lookupUserOf_empty (kind : Bool) (b : Behavior) (peer : Peer) :
    lookupUserOf E kind { behavior := b } who peer = false := by
  cases kind <;> rfl

theorem settingMatches_none : settingMatches E none sin6 who = false := by
  simp [settingMatches, isEveryone, aclEntries]

theorem settingMatches_of_list {setting : Option Text} (h : isEveryone setting = false) :
    settingMatches E setting sin6 who =
      (peersOf E sin6).any fun peer =>
      (aclEntries E setting).any (AclEntry.isMatch E who peer) := by
  rw [settingMatches, h, Bool.false_or]

theorem lookupUserOf_tables (pAllow pDeny : Option Text) (kind : Bool) (peer : Peer) :
    lookupUserOf E kind (pDeny.elim (pAllow.elim {} fun list => fillTable E {} list true)
      fun list => fillTable E (pAllow.elim {} fun list => fillTable E {} list true) list false)
      who peer = (aclEntries E (if kind then pAllow else pDeny)).any
      (AclEntry.isMatch E who peer) := by
  have hnone : (aclEntries E none).any (AclEntry.isMatch E who peer) = false := rfl
  cases pAllow <;> cases pDeny <;> cases kind <;>
    simp [lookupUserOf_fillTable, lookupUserOf_empty, hnone]

theorem not_granted_of_list (hread : perm ≠ .read) (hwrite : perm ≠ .write)
    (hallow : allowed E cfg sin6 who perm = false) : ¬ Granted E cfg sin6 who perm := by
  rw [granted_iff, hallow]
  rintro ⟨-, h | ⟨-, parent, hnext, -⟩⟩
  · cases h
  · cases parent <;> cases hnext <;> contradiction

/-- What a table says of a request, for the search through it. -/
structure Faithful (E : Env) (cfg : Config) (sin6 : BitVec 128) (who : Text) (perm : DCpermission)
    (pentry : PermTypeEntry) : Prop where
  deny : (peersOf E sin6).any (lookupUserDeny E pentry who) = denied E cfg sin6 who perm
  allow : ((peersOf E sin6).any (lookupUserAllow E pentry who) ||
    decide (pentry.behavior = .onlyDenies)) = allowed E cfg sin6 who perm

variable (E cfg) in
/-- What `Init` makes of the settings of a permission. -/
theorem initEntry_cases (sin6 : BitVec 128) (who : Text) (hperm : perm ≠ .allow) :
    ((initEntry E cfg perm).behavior = .allow ∧ Granted E cfg sin6 who perm) ∨
    ((initEntry E cfg perm).behavior = .deny ∧ ¬ Granted E cfg sin6 who perm) ∨
    (((initEntry E cfg perm).behavior = .onlyDenies ∨ (initEntry E cfg perm).behavior = .useTable) ∧
      Faithful E cfg sin6 who perm (initEntry E cfg perm)) := by
  have hdenied : denied E cfg sin6 who perm =
      settingMatches E (cfg.setting cfg.denySetting perm) sin6 who := rfl
  have hallowed : allowed E cfg sin6 who perm =
      settingMatches E (cfg.setting cfg.allowSetting perm) sin6 who := rfl
  simp only [initEntry, if_neg hperm]
  generalize cfg.setting cfg.denySetting perm = pDeny at hdenied
  generalize cfg.setting cfg.allowSetting perm = pAllow at hallowed
  split_ifs with hdeny hall
  · refine .inr (.inl ⟨rfl, ?_⟩)
    simp only [Bool.or_eq_true, Bool.and_eq_true, decide_eq_true_eq] at hdeny
    rcases hdeny with heveryone | ⟨hnone, hread, hwrite⟩
    · rw [granted_iff, hdenied, settingMatches, heveryone]
      simp
    · rw [isNone_iff_eq_none.mp hnone, settingMatches_none] at hallowed
      exact not_granted_of_list hread hwrite hallowed
  · have htrue : allowed E cfg sin6 who perm = true := by rw [hallowed, settingMatches, hall]; rfl
    cases pDeny with
    | none =>
      rw [settingMatches_none] at hdenied
      exact .inl ⟨rfl, .entry hdenied htrue⟩
    | some list =>
      have hlist : isEveryone (some list) = false := by
        cases h : isEveryone (some list) <;> simp [h] at hdeny ⊢
      have hb : (fillTable E { behavior := .onlyDenies } list false).behavior = .onlyDenies :=
        behavior_fillTable _ _ _
      refine .inr (.inr ⟨.inl hb, ?_, by simp [hb, htrue]⟩)
      rw [hdenied, settingMatches_of_list hlist]
      congr 1
      funext peer
      have htable : lookupUserOf E false (fillTable E { behavior := .onlyDenies } list false) who
        peer
          = _ := lookupUserOf_fillTable false false _ list peer
      exact htable.trans (by simp [lookupUserOf_empty])
  · have hdeny' : isEveryone pDeny = false := by
      cases h : isEveryone pDeny <;> simp [h] at hdeny ⊢
    have hall' : isEveryone pAllow = false := by simpa using hall
    have htables : ∀ kind peer, lookupUserOf E kind _ who peer = _ :=
      lookupUserOf_tables pAllow pDeny
    refine .inr (.inr ⟨.inr ?_, ?_, ?_⟩)
    · cases pAllow <;> cases pDeny <;> simp [behavior_fillTable]
    · rw [hdenied, settingMatches_of_list hdeny']
      congr 1
      funext peer
      cases pAllow <;> cases pDeny <;> exact htables false peer
    · rw [hallowed, settingMatches_of_list hall']
      cases pAllow <;> cases pDeny <;> simp only [behavior_fillTable, reduceCtorEq, decide_false,
        Bool.or_false] <;> congr 1 <;> funext peer <;> exact htables true peer

/-! ## Masks -/

theorem meets_or (a b c : BitVec 64) : meets (a ||| b) c = (meets a c || meets b c) := by
  unfold meets
  rw [BitVec.and_comm, BitVec.and_or_distrib_left, BitVec.and_comm c a, BitVec.and_comm c b]
  by_cases ha : a &&& c = 0 <;> by_cases hb : b &&& c = 0 <;> simp [ha]

theorem meets_or_right (a b c : BitVec 64) : meets a (b ||| c) = (meets a b || meets a c) := by
  unfold meets
  rw [BitVec.and_or_distrib_left]
  by_cases hb : a &&& b = 0 <;> by_cases hc : a &&& c = 0 <;> simp [hb]

@[simp] theorem meets_zero (c : BitVec 64) : meets 0#64 c = false := by simp [meets]

section

variable (p q : DCpermission)
include p q

theorem meets_allow_allow : meets (allowMask p) (allowMask q) = decide (p = q) := by
  cases p <;> cases q <;> rfl

theorem meets_deny_deny : meets (denyMask p) (denyMask q) = decide (p = q) := by
  cases p <;> cases q <;> rfl

@[simp] theorem meets_allow_deny : meets (allowMask p) (denyMask q) = false := by
  cases p <;> cases q <;> rfl

@[simp] theorem meets_deny_allow : meets (denyMask p) (allowMask q) = false := by
  cases p <;> cases q <;> rfl

end

def maskOf (perm : DCpermission) (allow deny : Bool) : BitVec 64 :=
  (if allow then allowMask perm else 0) ||| if deny then denyMask perm else 0

@[simp] theorem meets_maskOf_allow (p q : DCpermission) (a d : Bool) :
    meets (maskOf p a d) (allowMask q) = (a && decide (p = q)) := by
  cases a <;> cases d <;> simp [maskOf, meets_or, meets_allow_allow]

@[simp] theorem meets_maskOf_deny (p q : DCpermission) (a d : Bool) :
    meets (maskOf p a d) (denyMask q) = (d && decide (p = q)) := by
  cases a <;> cases d <;> simp [maskOf, meets_or, meets_deny_deny]

theorem maskOf_eq_zero : maskOf perm a d = 0 ↔ a = false ∧ d = false := by
  constructor
  · intro h
    have hallow := meets_maskOf_allow perm perm a d
    have hdeny := meets_maskOf_deny perm perm a d
    simp only [h] at hallow hdeny
    simpa using And.intro hallow.symm hdeny.symm
  · rintro ⟨rfl, rfl⟩
    simp [maskOf]

theorem maskOf_or_allow : maskOf perm false d ||| allowMask perm = maskOf perm true d := by
  simp [maskOf, BitVec.or_comm]

theorem maskOf_or_deny : maskOf perm a false ||| denyMask perm = maskOf perm a true := by
  simp [maskOf]

/-! ## The search -/

variable {pentry : PermTypeEntry}

variable (E pentry perm who) in
theorem scanPeer_mask (r : Reasons) (peer : Peer) :
    ∃ a' r', scanPeer E pentry perm who (maskOf perm a d, r) peer =
        (maskOf perm a' (d || lookupUserDeny E pentry who peer), r') ∧
      (a' || (d || lookupUserDeny E pentry who peer)) =
        (a || lookupUserAllow E pentry who peer || (d || lookupUserDeny E pentry who peer)) := by
  unfold scanPeer
  cases lookupUserDeny E pentry who peer <;> cases lookupUserAllow E pentry who peer <;>
    cases a <;> cases d <;>
    simp [meets_or_right, maskOf_or_allow, maskOf_or_deny]

theorem or_chain : ∀ a a1 a2 d x y z t : Bool, (a1 || (d || x)) = (a || y || (d || x)) →
    (a2 || (d || x || z)) = (a1 || t || (d || x || z)) →
    (a2 || (d || (x || z))) = (a || (y || t) || (d || (x || z))) := by
  decide

variable (E pentry perm who) in
theorem scanPeers_mask (peers : List Peer) (a d : Bool) (r : Reasons) :
    ∃ a' r', peers.foldl (scanPeer E pentry perm who) (maskOf perm a d, r) =
        (maskOf perm a' (d || peers.any (lookupUserDeny E pentry who)), r') ∧
      (a' || (d || peers.any (lookupUserDeny E pentry who))) =
        (a || peers.any (lookupUserAllow E pentry who) ||
          (d || peers.any (lookupUserDeny E pentry who))) := by
  induction peers generalizing a d r with
  | nil => exact ⟨a, r, by simp, by simp⟩
  | cons peer peers ih =>
    obtain ⟨a1, r1, h1, hbits1⟩ := scanPeer_mask E who perm pentry r peer
    obtain ⟨a2, r2, h2, hbits2⟩ := ih a1 (d || lookupUserDeny E pentry who peer) r1
    refine ⟨a2, r2, ?_, ?_⟩
    · rw [foldl_cons, h1, h2, any_cons, Bool.or_assoc]
    · rw [any_cons]
      exact or_chain _ _ _ _ _ _ _ _ hbits1 hbits2

variable (E pentry perm who) in
/-- **The search** finds an entry that denies, or else one that allows. -/
theorem scan_mask (r : Reasons) : ∃ a r' hostnames, scan E pentry perm who sin6 r =
        ((maskOf perm a ((peersOf E sin6).any (lookupUserDeny E pentry who)), r'), hostnames) ∧
      ((peersOf E sin6).any (lookupUserDeny E pentry who) = false →
        a = (peersOf E sin6).any (lookupUserAllow E pentry who)) := by
  obtain ⟨a1, r1, h1, hbits1⟩ := scanPeer_mask E who perm pentry r
    (.ip (E.ipString sin6))
  rw [show maskOf perm false false = 0 from maskOf_eq_zero.mpr ⟨rfl, rfl⟩] at h1
  simp only [scan, h1, peersOf, any_cons, scanHostnames]
  cases hdeny : lookupUserDeny E pentry who (.ip (E.ipString sin6)) with
  | true => exact ⟨a1, r1, [], by simp [meets_or_right], by simp⟩
  | false =>
    obtain ⟨a2, r2, h2, hbits2⟩ := scanPeers_mask E who perm pentry
      ((E.hostnameWithAlias sin6).map .hostname) a1 false r1
    refine ⟨a2, r2, E.hostnameWithAlias sin6, ?_, fun hnone => ?_⟩
    · simpa using h2
    · simp only [hdeny, Bool.false_or, Bool.or_false] at hbits1 hnone
      simpa [hnone, hbits1] using hbits2

/-! ## The answer of `Verify` -/

/-- **The table of the results** says what the rule says. -/
structure Good (E : Env) (cfg : Config) (v : IpVerify) : Prop where
  table : v.didInit = true → ∀ perm, v.permTypeArray perm = some (initEntry E cfg perm)
  deny : ∀ sin6 who mask perm, v.permHashTable.lookup (sin6, who) = some mask →
    meets mask (denyMask perm) = true → ¬ Granted E cfg sin6 who perm
  allow : ∀ sin6 who mask perm, v.permHashTable.lookup (sin6, who) = some mask →
    meets mask (denyMask perm) = false → meets mask (allowMask perm) = true →
    Granted E cfg sin6 who perm

/-- A hole is open for all that is implied, too. -/
def HolesDown (v : IpVerify) : Prop :=
  ∀ perm implied id, perm.nextImplied = some implied →
    ((v.punchedHoleArray perm).lookup id).isSome → ((v.punchedHoleArray implied).lookup id).isSome

variable {v : IpVerify} {addr : SockAddr} {user : Option Text}

theorem good_new : Good E cfg {} :=
  ⟨nofun, fun _ _ _ _ h => (by cases h), fun _ _ _ _ h => (by cases h)⟩

theorem Good.init (hG : Good E cfg v) : Good E cfg (init E cfg v) := by
  unfold Authorization.init
  split_ifs
  · exact hG
  · exact ⟨fun _ _ => rfl, fun _ _ _ _ h => (by cases h), fun _ _ _ _ h => (by cases h)⟩

theorem Good.initialised (hG : Good E cfg v) :
    (Authorization.init E cfg v).permTypeArray perm = some (initEntry E cfg perm) := by
  unfold Authorization.init
  split_ifs with hinit
  · exact hG.table hinit perm
  · rfl

theorem holes_init : (init E cfg v).punchedHoleArray = v.punchedHoleArray := by
  unfold Authorization.init
  split_ifs <;> rfl

theorem Good.add (hG : Good E cfg v) (hdeny : d = true → ¬ Granted E cfg sin6 who perm)
    (hallow : d = false → a = true → Granted E cfg sin6 who perm) :
    Good E cfg (addHashEntry v sin6 who (maskOf perm a d)) := by
  have hlook : ∀ key mask, (addHashEntry v sin6 who (maskOf perm a d)).permHashTable.lookup key =
      some mask → v.permHashTable.lookup key = some mask ∨ key = (sin6, who) ∧
        ∃ old, mask = old ||| maskOf perm a d ∧
        (old = 0 ∨ v.permHashTable.lookup key = some old) := by
    intro key mask h
    simp only [addHashEntry] at h
    by_cases hk : key = (sin6, who)
    · rw [hk, AList.lookup_insert, some.injEq] at h
      refine .inr ⟨hk, _, h.symm, ?_⟩
      rw [hk]
      cases v.permHashTable.lookup (sin6, who) <;> simp
    · exact .inl ((AList.lookup_insert_ne hk).symm.trans h)
  refine ⟨hG.table, fun s w mask p h hbit => ?_, fun s w mask p h hno hbit => ?_⟩
  · rcases hlook _ _ h with h | ⟨heq, old, rfl, hold⟩
    · exact hG.deny s w mask p h hbit
    · cases heq
      rw [meets_or, meets_maskOf_deny, or_eq_true, and_eq_true, decide_eq_true_eq] at hbit
      rcases hbit with hbit | ⟨hd, rfl⟩
      · rcases hold with rfl | hold
        · simp at hbit
        · exact hG.deny sin6 who old p hold hbit
      · exact hdeny hd
  · rcases hlook _ _ h with h | ⟨heq, old, rfl, hold⟩
    · exact hG.allow s w mask p h hno hbit
    · cases heq
      rw [meets_or, meets_maskOf_deny, or_eq_false_iff, and_eq_false_imp] at hno
      rw [meets_or, meets_maskOf_allow, or_eq_true, and_eq_true, decide_eq_true_eq] at hbit
      rcases hbit with hbit | ⟨ha, rfl⟩
      · rcases hold with rfl | hold
        · simp at hbit
        · exact hG.allow sin6 who old p hold hno.1 hbit
      · refine hallow ?_ ha
        cases d
        · rfl
        · simpa using hno.2 rfl

/-- A call of `Verify` decides as it should, and keeps the table good and the holes as they are. -/
def Answers (E : Env) (cfg : Config) (v : IpVerify) (expect : Prop)
    (res : Option (IpVerify × Bool × Reasons)) : Prop :=
  ∃ v' ok r, res = some (v', ok, r) ∧ Good E cfg v' ∧ v'.punchedHoleArray = v.punchedHoleArray ∧
    (ok = true ↔ expect)

theorem tryParents_granted (parents : List DCpermission)
    (hf : ∀ u, Good E cfg u → u.punchedHoleArray = v.punchedHoleArray → ∀ parent ∈ parents, ∀ r,
      Answers E cfg u (Granted E cfg sin6 who parent) (f u parent r))
    {u : IpVerify} (hG : Good E cfg u) (hh : u.punchedHoleArray = v.punchedHoleArray)
    (r : Reasons) :
    ∃ v' found r', tryParents f parents u r = some (v', found, r') ∧ Good E cfg v' ∧
      v'.punchedHoleArray = v.punchedHoleArray ∧
      (found.isSome = true ↔ ∃ parent ∈ parents, Granted E cfg sin6 who parent) := by
  induction parents generalizing u r with
  | nil => exact ⟨u, none, r, rfl, hG, hh, by simp⟩
  | cons parent parents ih =>
    obtain ⟨u', ok, r', hrun, hG', hh', hok⟩ := hf u hG hh parent mem_cons_self r
    simp only [tryParents, hrun]
    cases ok with
    | true => exact ⟨u', some parent, r', rfl, hG', hh'.trans hh, by simpa using .inl (hok.mp rfl)⟩
    | false =>
      obtain ⟨v', found, r'', hrun', hG'', hh'', hfound⟩ :=
        ih (fun w hw hwh p hp => hf w hw hwh p (mem_cons_of_mem _ hp)) hG' (hh'.trans hh) r'
      refine ⟨v', found, r'', by simpa using hrun', hG'', hh'', ?_⟩
      have hnot : ¬ Granted E cfg sin6 who parent := fun h => by cases hok.mpr h
      simpa [hnot] using hfound

section

variable (hG : Good E cfg v) (hF : Faithful E cfg sin6 who perm pentry)
  (hf : ∀ u, Good E cfg u → u.punchedHoleArray = v.punchedHoleArray → ∀ parent, parent.nextImplied =
    some perm → ∀ r, Answers E cfg u (Granted E cfg sin6 who parent) (f u parent r))
  (r : Reasons)
include hG hF hf r

theorem verifyTable_granted :
    ∃ v' a d r', verifyTable E f pentry v perm sin6 who r = some (v', maskOf perm a d, r') ∧
      Good E cfg v' ∧ v'.punchedHoleArray = v.punchedHoleArray ∧
      ((!d && a) = true ↔ Granted E cfg sin6 who perm) := by
  obtain ⟨a, r1, hostnames, hscan, hbits⟩ :=
    scan_mask E who perm pentry r
  rw [hF.deny] at hscan hbits
  have hallowMask : allowMask perm = maskOf perm true false := by simp [maskOf]
  have hdenyMask : denyMask perm = maskOf perm false true := by simp [maskOf]
  simp only [verifyTable, hscan]
  by_cases hzero : maskOf perm a (denied E cfg sin6 who perm) = 0
  · by_cases honly : pentry.behavior = .onlyDenies
    · -- nothing matches, and everyone is allowed
      rw [if_pos hzero, if_pos honly]
      obtain ⟨rfl, hd⟩ := maskOf_eq_zero.mp hzero
      have hgranted : Granted E cfg sin6 who perm := .entry hd (by rw [← hF.allow]; simp [honly])
      rw [hallowMask]
      exact ⟨_, true, false, _, rfl, hG.add nofun fun _ _ => hgranted, rfl, by simp [hgranted]⟩
    · -- nothing matches
      rw [if_pos hzero, if_neg honly]
      obtain ⟨rfl, hd⟩ := maskOf_eq_zero.mp hzero
      have ha : allowed E cfg sin6 who perm = false := by
        rw [← hF.allow, ← hbits hd]
        simp [honly]
      have hiff : Granted E cfg sin6 who perm ↔
          ∃ parent ∈ perm.directlyImpliedBy, Granted E cfg sin6 who parent := by
        rw [granted_iff, hd, ha]
        simp [mem_directlyImpliedBy]
      obtain ⟨v', found, r2, hrun, hG', hh', hfound⟩ := tryParents_granted perm.directlyImpliedBy
        (fun u hu huh parent hp => hf u hu huh parent (mem_directlyImpliedBy.mp hp)) hG rfl r1
      rw [← hiff] at hfound
      simp only [hrun]
      cases found with
      | some parent =>
        have hgranted := hfound.mp rfl
        simp only [hallowMask]
        exact ⟨_, true, false, _, rfl, hG'.add nofun fun _ _ => hgranted, hh', by simp [hgranted]⟩
      | none =>
        have hnot : ¬ Granted E cfg sin6 who perm := fun h => by cases hfound.mpr h
        simp only [hdenyMask]
        exact ⟨_, false, true, _, rfl, hG'.add (fun _ => hnot) nofun, hh', by simp [hnot]⟩
  · -- an entry matches
    rw [if_neg hzero]
    have hiff : (!denied E cfg sin6 who perm && a) = true ↔ Granted E cfg sin6 who perm := by
      cases hd : denied E cfg sin6 who perm with
      | true =>
        rw [granted_iff, hd]
        simp
      | false =>
        have ha : a = true := eq_true_of_not_eq_false fun ha =>
          hzero (maskOf_eq_zero.mpr ⟨ha, hd⟩)
        have hallow : allowed E cfg sin6 who perm = true := by
          rw [← hF.allow, ← hbits hd, ha]
          rfl
        simp [ha, Granted.entry hd hallow]
    refine ⟨_, a, _, _, rfl, hG.add (fun hd h => ?_) fun hd ha => ?_, rfl, hiff⟩
    · simpa [hd] using hiff.mpr h
    · exact hiff.mp (by simp [hd, ha])

theorem verifyCached_granted :
    Answers E cfg v (Granted E cfg sin6 who perm) (verifyCached E f pentry v perm sin6 who r) := by
  unfold verifyCached
  cases hcached : lookupCachedVerifyResult v perm sin6 who with
  | some mask =>
    obtain ⟨hlook, hbits⟩ := Option.filter_eq_some_iff.mp hcached
    cases hdeny : meets mask (denyMask perm) with
    | true =>
      have hnot := hG.deny _ _ _ _ hlook hdeny
      simp only [hdeny]
      exact ⟨v, false, _, rfl, hG, rfl, by simp [hnot]⟩
    | false =>
      rw [meets_or_right, hdeny, Bool.or_false] at hbits
      have hgranted := hG.allow _ _ _ _ hlook hdeny hbits
      simp only [hdeny, hbits]
      exact ⟨v, true, _, rfl, hG, rfl, by simp [hgranted]⟩
  | none =>
    obtain ⟨v', a, d, r', hrun, hG', hh', hok⟩ := verifyTable_granted hG hF hf r
    simp only [hrun]
    exact ⟨v', _, r', rfl, hG', hh', by simpa using hok⟩

end

/-- The levels that are above a permission. -/
def depth : DCpermission → ℕ
  | .read => 2
  | .write => 1
  | _ => 0

theorem depth_lt (h : parent.nextImplied = some perm) : depth parent < depth perm := by
  cases parent <;> cases h <;> decide

theorem findHole_parent (hH : HolesDown v) {ip : Text}
    (hnext : parent.nextImplied = some perm) (hnone : findHole v perm user ip = none) :
    findHole v parent user ip = none := by
  rw [findHole, find?_eq_none] at hnone ⊢
  exact fun id hid hopen => hnone id hid (hH parent perm id hnext hopen)

/-- **The answer of `Verify`.** -/
theorem verifyLevels_granted {n : ℕ} (hn : depth perm < n) (hG : Good E cfg v) (hH : HolesDown v)
    (r : Reasons) : Answers E cfg v (perm = .allow ∨
        (findHole v perm user (E.ipString addr.toIpv6Address)).isSome = true ∨
        Granted E cfg addr.toIpv6Address (whoOf user) perm)
      (verifyLevels E cfg n v perm addr user r) := by
  induction n generalizing perm v r with
  | zero => exact absurd hn (Nat.not_lt_zero _)
  | succ n ih =>
    have hG' := hG.init
    have hhole : findHole (init E cfg v) perm user (E.ipString addr.toIpv6Address) =
        findHole v perm user (E.ipString addr.toIpv6Address) := by
      simp [findHole, holes_init]
    rw [verifyLevels, verifyLevel]
    by_cases hallow : perm = .allow
    · simp only [if_pos hallow]
      exact ⟨_, true, r, rfl, hG', holes_init, by simp [hallow]⟩
    simp only [if_neg hallow, hG.initialised, hhole, Option.bind_eq_bind, Option.bind_some]
    cases hfind : findHole v perm user (E.ipString addr.toIpv6Address) with
    | some id => exact ⟨_, true, _, rfl, hG', holes_init, by simp⟩
    | none =>
      have hexpect : ∀ ok, (ok = true ↔ Granted E cfg addr.toIpv6Address (whoOf user) perm) →
          (ok = true ↔ perm = .allow ∨ (none : Option Text).isSome = true ∨
            Granted E cfg addr.toIpv6Address (whoOf user) perm) := by
        intro ok h
        simp [h, hallow]
      rcases initEntry_cases E cfg addr.toIpv6Address (whoOf user) hallow with
        ⟨hb, hgranted⟩ | ⟨hb, hnot⟩ | ⟨hb, hF⟩
      · simp only [hb]
        exact ⟨_, true, _, rfl, hG', holes_init, hexpect _ (by simp [hgranted])⟩
      · simp only [hb]
        exact ⟨_, false, _, rfl, hG', holes_init, hexpect _ (by simp [hnot])⟩
      · -- the calls for the permissions above
        have hf : ∀ u, Good E cfg u → u.punchedHoleArray = (init E cfg v).punchedHoleArray →
            ∀ parent, parent.nextImplied = some perm → ∀ r, Answers E cfg u
              (Granted E cfg addr.toIpv6Address (whoOf user) parent)
              (verifyLevels E cfg n u parent addr user r) := by
          intro u hu huh parent hnext r
          rw [holes_init] at huh
          have hdepth := depth_lt hnext
          have hHu : HolesDown u := by
            intro p q id
            rw [huh]
            exact hH p q id
          have hno : findHole u parent user (E.ipString addr.toIpv6Address) = none := by
            refine findHole_parent hHu hnext ?_
            rw [← hfind]
            simp [findHole, huh]
          have hparent : parent ≠ .allow := by
            rintro rfl
            cases hnext
          have hlt : depth parent < n := by omega
          obtain ⟨u', ok, r', hrun, hG'', hh, hok⟩ := ih hlt hu hHu r
          exact ⟨u', ok, r', hrun, hG'', hh, by simpa [hno, hparent] using hok⟩
        obtain ⟨v', ok, r', hrun, hG'', hh, hok⟩ := verifyCached_granted hG' hF hf r
        rcases hb with hb | hb <;> simp only [hb] <;>
          exact ⟨v', ok, r', hrun, hG'', hh.trans holes_init, hexpect ok hok⟩

variable (perm addr user) in
theorem verify_granted (hG : Good E cfg v) (hH : HolesDown v) (r : Reasons) :
    Answers E cfg v (perm = .allow ∨
        (findHole v perm user (E.ipString addr.toIpv6Address)).isSome = true ∨
        Granted E cfg addr.toIpv6Address (whoOf user) perm)
      (verify E cfg v perm addr user r) :=
  verifyLevels_granted (by cases perm <;> decide) hG hH r

end Condor.Authorization
