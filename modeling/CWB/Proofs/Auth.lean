import CWB.Spec.Auth
import Mathlib.Data.Fintype.EquivFin

/-! Access control of the server: when `check_grant` answers as the `user` commands say, and
what the loop at login leaves of the corpus list. -/

namespace CWB

open List

/-- What the commands say about user and corpus: the first declaration of the user counts. -/
def Configured (cmds : List UserDecl) (u : UserName) (c : CorpusName) : Prop :=
  ∃ d, cmds.find? (·.name = u) = some d ∧ (d.grants = none ∨ c ∈ d.grants.getD [])

instance (cmds : List UserDecl) (u : UserName) (c : CorpusName) : Decidable (Configured cmds u c) :=
  match h : cmds.find? (·.name = u) with
  | none => isFalse (by simp [Configured, h])
  | some d => decidable_of_iff (d.grants = none ∨ c ∈ d.grants.getD []) (by simp [Configured, h])

/-- The corpus that an entry belongs to: for a query result its mother corpus. -/
def CorpusEntry.motherCorpus {α : Type} (cl : CorpusEntry α) : CorpusName :=
  if cl.type = .system then cl.name else cl.motherName

def GrantsAsConfigured (cmds : List UserDecl) : Prop :=
  ∃ users, authorizedUsers cmds = some users ∧ ∀ u c, checkGrant users u c ↔ Configured cmds u c

/-- The loop stays on the list and leaves the entries of the corpora that `u` may access. -/
def FilteredAsConfigured {α : Type} (cmds : List UserDecl) (u : UserName) (st : QueryStore α) : Prop :=
  ∃ users st', authorizedUsers cmds = some users ∧ st.loginFilter (checkGrant users u) = some st' ∧
    st'.corpuslist = st.corpuslist.filter fun cl => Configured cmds u cl.motherCorpus

/-- The declarations that count, the last one first. -/
def counting (cmds : List UserDecl) : List UserDecl :=
  cmds.foldl (fun ds d => if d.name ∈ ds.map UserDecl.name then ds else d :: ds) []

/-- A new declaration has no empty list of grants, and the grants of a repeated one are grants
of the last new user anyway. -/
def GrantsFit (before : List UserDecl) (d : UserDecl) : Prop :=
  if d.name ∈ before.map UserDecl.name then
    ∀ c ∈ d.grants.getD [], ∃ e ∈ (counting before).head?, c ∈ e.grants.getD []
  else d.grants ≠ some []

def GrantsInPlace (cmds : List UserDecl) : Prop := ∀ before d after, cmds = before ++ d :: after → GrantsFit before d

/-! ## The user list -/

/-- A declaration that counts, with the grants of later ones that were given to its user. -/
structure Account where
  decl : UserDecl
  strays : List CorpusName := []

namespace Account

def grantList (a : Account) : List CorpusName := (a.decl.grants.getD [] ++ a.strays).reverse

def entry (a : Account) : UserEntry := ⟨a.decl.name, a.decl.passwd, a.grantList⟩

def addStrays (cs : List CorpusName) (a : Account) : Account := { a with strays := a.strays ++ cs }

@[simp] theorem addStrays_decl (cs : List CorpusName) (a : Account) : (a.addStrays cs).decl = a.decl := rfl

/-- The strays change nothing. -/
def Clean (a : Account) : Prop := a.decl.grants ≠ some [] ∧ ∀ c ∈ a.strays, c ∈ a.decl.grants.getD []

theorem clean_iff (a : Account) :
    a.Clean ↔ ∀ c, (a.grantList = [] ∨ c ∈ a.grantList) ↔ (a.decl.grants = none ∨ c ∈ a.decl.grants.getD []) := by
  obtain ⟨⟨name, passwd, grants⟩, strays⟩ := a
  -- a name that is on no list
  obtain ⟨x, hx⟩ := Infinite.exists_notMem_finset (strays ++ grants.getD []).toFinset
  rw [mem_toFinset, mem_append, not_or] at hx
  rcases grants with _ | _ | ⟨g, gs⟩
  · refine ⟨fun ⟨_, h⟩ c => ?_, fun h => ⟨by simp, fun c hc => ?_⟩⟩
    · obtain rfl : strays = [] := eq_nil_iff_forall_not_mem.mpr fun c hc => by simpa using h c hc
      simp [grantList]
    · have := (h x).mpr (.inl rfl)
      grind [grantList]
  · refine ⟨fun ⟨h, _⟩ => absurd rfl h, fun h => ?_⟩
    rcases strays with _ | ⟨s, strays⟩
    · have := (h x).mp (.inl rfl)
      simp at this
    · have := (h s).mp (.inr (by simp [grantList]))
      simp at this
  · refine ⟨fun ⟨_, h⟩ c => ?_, fun h => ⟨by simp, fun c hc => ?_⟩⟩
    · have := h c
      simp [grantList] at this ⊢
      grind
    · have := (h c).mp (.inr (by simp [grantList, hc]))
      simpa using this

theorem addStrays_clean (cs : List CorpusName) (a : Account) :
    (a.addStrays cs).Clean ↔ a.Clean ∧ ∀ c ∈ cs, c ∈ a.decl.grants.getD [] := by
  simp only [Clean, addStrays, mem_append]
  grind

end Account

def findAccount (u : UserName) (as : List Account) : Option Account := as.find? (·.decl.name = u)

theorem findAccount_isSome {u : UserName} {as : List Account} :
    (findAccount u as).isSome ↔ u ∈ as.map (·.decl.name) := by
  rw [findAccount, find?_isSome]
  simp [eq_comm]

/-- The grants of a repeated declaration go to the head of the list. -/
def authorizeStep (as : List Account) (d : UserDecl) : List Account :=
  if d.name ∈ as.map (·.decl.name) then as.modifyHead (Account.addStrays (d.grants.getD []))
  else ⟨d, []⟩ :: as

def accounts (cmds : List UserDecl) : List Account := cmds.foldl authorizeStep []

theorem accounts_concat (cmds : List UserDecl) (d : UserDecl) :
    accounts (cmds ++ [d]) = authorizeStep (accounts cmds) d := by
  simp [accounts, foldl_append]

theorem map_modifyHead {α β : Type} {f : α → α} {g : α → β} (h : ∀ a, g (f a) = g a) (as : List α) :
    (as.modifyHead f).map g = as.map g := by
  cases as with
  | nil => rfl
  | cons a as => simp [h]

theorem authorizeStep_decl (as : List Account) (d : UserDecl) :
    (authorizeStep as d).map Account.decl
      = if d.name ∈ as.map (·.decl.name) then as.map Account.decl else d :: as.map Account.decl := by
  rw [authorizeStep]
  split_ifs
  · exact map_modifyHead (Account.addStrays_decl _) as
  · rfl

theorem addGrants_eq (grants : List CorpusName) (user : UserEntry) (users : List UserEntry) :
    grants.foldlM (fun users corpus => addGrantToLastUser corpus users) (user :: users)
      = some ({ user with grants := grants.reverse ++ user.grants } :: users) := by
  induction grants generalizing user with
  | nil => rfl
  | cons g grants ih =>
    rw [foldlM_cons, addGrantToLastUser, Option.bind_eq_bind, Option.bind_some, ih]
    simp

theorem findUser_entries (u : UserName) (as : List Account) :
    findUser u (as.map Account.entry) = (findAccount u as).map Account.entry := by
  rw [findUser, find?_map]
  rfl

theorem authorizeCmd_entries (as : List Account) (d : UserDecl) :
    authorizeCmd (as.map Account.entry) d = some ((authorizeStep as d).map Account.entry) := by
  rw [authorizeCmd, addUserToList, findUser_entries, authorizeStep]
  split_ifs with hd
  · obtain ⟨e, he⟩ := Option.isSome_iff_exists.mp (findAccount_isSome.mpr hd)
    obtain ⟨a, as, rfl⟩ := exists_cons_of_ne_nil (ne_nil_of_mem (mem_of_find?_eq_some he))
    simp only [he, Option.map_some, map_cons, addGrants_eq]
    simp [Account.entry, Account.grantList, Account.addStrays]
  · have hnone : findAccount d.name as = none := by
      rw [← Option.not_isSome_iff_eq_none, findAccount_isSome]
      exact hd
    simp [hnone, addGrants_eq, Account.entry, Account.grantList]

/-- The assertion never fails. -/
theorem authorizedUsers_eq (cmds : List UserDecl) : authorizedUsers cmds = some ((accounts cmds).map Account.entry) := by
  induction cmds using reverseRecOn with
  | nil => rfl
  | append_singleton cmds d ih =>
    rw [authorizedUsers] at ih
    rw [authorizedUsers, foldlM_append, ih, accounts_concat]
    simp [authorizeCmd_entries]

theorem counting_eq (cmds : List UserDecl) : counting cmds = (accounts cmds).map Account.decl := by
  induction cmds using reverseRecOn with
  | nil => rfl
  | append_singleton cmds d ih =>
    rw [counting] at ih
    rw [counting, foldl_append, ih, accounts_concat, authorizeStep_decl, foldl_cons, foldl_nil,
      map_map]
    rfl

theorem find_declare (ds : List UserDecl) (d : UserDecl) (u : UserName) :
    (if d.name ∈ ds.map UserDecl.name then ds else d :: ds).find? (·.name = u)
      = (ds.find? (·.name = u)).or ([d].find? (·.name = u)) := by
  by_cases hu : d.name = u
  · split_ifs with hd
    · obtain ⟨e, he, hname⟩ := mem_map.mp hd
      have hsome : (ds.find? fun e => decide (e.name = u)).isSome :=
        find?_isSome.mpr ⟨e, he, by simp [hname, hu]⟩
      rw [Option.or_of_isSome hsome]
    · have hnone : ds.find? (fun e => decide (e.name = u)) = none := by
        rw [find?_eq_none]
        intro e he hname
        exact hd (mem_map.mpr ⟨e, he, by simpa [hu] using hname⟩)
      simp [hnone, hu]
  · split_ifs <;> simp [hu]

theorem findAccount_decl (u : UserName) (as : List Account) :
    (findAccount u as).map Account.decl = (as.map Account.decl).find? (·.name = u) := by
  rw [findAccount, find?_map]
  rfl

/-- The user list holds the first declaration of each user. -/
theorem findAccount_accounts (cmds : List UserDecl) (u : UserName) :
    (findAccount u (accounts cmds)).map Account.decl = cmds.find? (·.name = u) := by
  rw [findAccount_decl]
  induction cmds using reverseRecOn with
  | nil => rfl
  | append_singleton cmds d ih =>
    have hstep := find_declare ((accounts cmds).map Account.decl) d u
    rw [map_map] at hstep
    rw [accounts_concat, find?_append, ← ih, authorizeStep_decl]
    exact hstep

theorem mem_names_accounts (cmds : List UserDecl) (u : UserName) :
    u ∈ (accounts cmds).map (·.decl.name) ↔ u ∈ cmds.map UserDecl.name := by
  rw [← findAccount_isSome, ← Option.isSome_map (f := Account.decl), findAccount_accounts, find?_isSome]
  simp [eq_comm]

theorem nodup_accounts (cmds : List UserDecl) : ((accounts cmds).map (·.decl.name)).Nodup := by
  induction cmds using reverseRecOn with
  | nil => exact nodup_nil
  | append_singleton cmds d ih =>
    rw [accounts_concat, authorizeStep]
    split_ifs with hd
    · rw [map_modifyHead (f := Account.addStrays _) fun a => rfl]
      exact ih
    · exact nodup_cons.mpr ⟨hd, ih⟩

/-! ## Grants -/

theorem checkGrant_entries (as : List Account) (u : UserName) (c : CorpusName) :
    checkGrant (as.map Account.entry) u c ↔ ∃ a, findAccount u as = some a ∧ (a.grantList = [] ∨ c ∈ a.grantList) := by
  rw [checkGrant, findUser_entries]
  cases findAccount u as with
  | none => simp
  | some a => by_cases hnil : a.grantList = [] <;> simp [Account.entry, hnil]

theorem configured_iff (cmds : List UserDecl) (u : UserName) (c : CorpusName) :
    Configured cmds u c ↔ ∃ a, findAccount u (accounts cmds) = some a ∧
      (a.decl.grants = none ∨ c ∈ a.decl.grants.getD []) := by
  rw [Configured, ← findAccount_accounts]
  simp

theorem findAccount_of_mem {cmds : List UserDecl} {a : Account} (ha : a ∈ accounts cmds) :
    findAccount a.decl.name (accounts cmds) = some a := by
  obtain ⟨a', ha'⟩ := Option.isSome_iff_exists.mp (findAccount_isSome.mpr (mem_map.mpr ⟨a, ha, rfl⟩))
  have hname : a'.decl.name = a.decl.name := by simpa using find?_some ha'
  rw [ha', inj_on_of_nodup_map (nodup_accounts cmds) (mem_of_find?_eq_some ha') ha hname]

theorem grantsAsConfigured_iff (cmds : List UserDecl) :
    GrantsAsConfigured cmds ↔ ∀ a ∈ accounts cmds, a.Clean := by
  simp only [GrantsAsConfigured, authorizedUsers_eq, Option.some.injEq, exists_eq_left', checkGrant_entries,
    configured_iff]
  refine ⟨fun h a ha => a.clean_iff.mpr fun c => ?_, fun h u c => ?_⟩
  · simpa [findAccount_of_mem ha] using h a.decl.name c
  · cases hfind : findAccount u (accounts cmds) with
    | none => simp
    | some a => simpa using a.clean_iff.mp (h a (mem_of_find?_eq_some hfind)) c

/-- The condition on one command says that its grants leave the accounts as they should be. -/
theorem authorizeStep_clean (cmds : List UserDecl) (d : UserDecl) :
    (∀ a ∈ authorizeStep (accounts cmds) d, a.Clean) ↔ (∀ a ∈ accounts cmds, a.Clean) ∧ GrantsFit cmds d := by
  rw [authorizeStep, GrantsFit, counting_eq]
  simp only [← mem_names_accounts]
  split_ifs with hd
  · obtain ⟨a₀, ha₀, -⟩ := mem_map.mp hd
    obtain ⟨a, as, has⟩ := exists_cons_of_ne_nil (ne_nil_of_mem ha₀)
    simp only [has, modifyHead_cons, forall_mem_cons, Account.addStrays_clean, map_cons, head?_cons,
      Option.mem_some_iff, exists_eq_left']
    grind
  · simp [Account.Clean, and_comm]

theorem grantsInPlace_concat (cmds : List UserDecl) (d : UserDecl) :
    GrantsInPlace (cmds ++ [d]) ↔ GrantsInPlace cmds ∧ GrantsFit cmds d := by
  refine ⟨fun h => ⟨fun before e after heq => h before e (after ++ [d]) (by simp [heq]), h cmds d [] rfl⟩, ?_⟩
  rintro ⟨h, hd⟩ before e after heq
  rcases eq_nil_or_concat after with rfl | ⟨after, x, rfl⟩
  · obtain ⟨rfl, he⟩ := append_inj' heq rfl
    rwa [← singleton_inj.mp he]
  · have hcmds : cmds = before ++ e :: after := by
      have happ : cmds ++ [d] = (before ++ e :: after) ++ [x] := by simpa using heq
      exact append_inj_left' happ rfl
    exact h before e after hcmds

theorem grantsInPlace_iff (cmds : List UserDecl) : GrantsInPlace cmds ↔ ∀ a ∈ accounts cmds, a.Clean := by
  induction cmds using reverseRecOn with
  | nil =>
    refine ⟨fun _ a ha => absurd ha not_mem_nil, fun _ before d after heq => ?_⟩
    simp at heq
  | append_singleton cmds d ih => rw [grantsInPlace_concat, ih, accounts_concat, authorizeStep_clean]

/-! ## The loop at login -/

namespace QueryStore

variable {α : Type} {granted : CorpusName → Bool} {st : QueryStore α} {before rest : List (CorpusEntry α)}
  {cl : CorpusEntry α}

theorem before_ne_id (hlist : st.corpuslist = before ++ cl :: rest)
    (hids : (st.corpuslist.map CorpusEntry.id).Nodup) : ∀ e ∈ before, e.id ≠ cl.id := by
  rw [hlist, map_append, nodup_append] at hids
  intro e he
  exact hids.2.2 e.id (mem_map_of_mem he) cl.id (by simp)

theorem dropWhile_ne_id (hlist : st.corpuslist = before ++ cl :: rest)
    (hids : (st.corpuslist.map CorpusEntry.id).Nodup) : st.corpuslist.dropWhile (·.id ≠ cl.id) = cl :: rest := by
  have hbefore := before_ne_id hlist hids
  rw [hlist, dropWhile_append_of_pos (by simpa using hbefore)]
  simp

theorem get?_of_split (hlist : st.corpuslist = before ++ cl :: rest)
    (hids : (st.corpuslist.map CorpusEntry.id).Nodup) : st.get? cl.id = some cl := by
  have hbefore := before_ne_id hlist hids
  have hnone : before.find? (·.id = cl.id) = none := by simpa [find?_eq_none] using hbefore
  rw [get?, hlist, find?_append, hnone]
  simp

theorem filterRound_granted (hlist : st.corpuslist = before ++ cl :: rest)
    (hids : (st.corpuslist.map CorpusEntry.id).Nodup) (h : granted cl.name) :
    filterRound granted st cl.id = some (st, rest.head?.map CorpusEntry.id) := by
  simp only [filterRound, get?_of_split hlist hids, Option.bind_eq_bind, Option.bind_some, h, if_true,
    nextCorpusFromList, dropWhile_ne_id hlist hids]

/-- The entry that is dropped is not on the list any more when its successor is asked for. -/
theorem filterRound_dropped (h : granted cl.name = false) (hget : st.get? cl.id = some cl) :
    filterRound granted st cl.id = none := by
  have hgone : (st.dropcorpus cl.id).corpuslist.dropWhile (·.id ≠ cl.id) = [] := by
    rw [dropWhile_eq_nil_iff]
    intro e he
    exact (mem_filter.mp he).2
  simp only [filterRound, hget, Option.bind_eq_bind, Option.bind_some, h, Bool.false_eq_true, if_false,
    nextCorpusFromList, hgone, Option.bind_none]

theorem filterLoop_granted (hids : (st.corpuslist.map CorpusEntry.id).Nodup) (fuel : ℕ) (hfuel : rest.length ≤ fuel)
    (hlist : st.corpuslist = before ++ rest) (h : ∀ e ∈ rest, granted e.name) :
    filterLoop granted fuel st (rest.head?.map CorpusEntry.id) = some st := by
  induction rest generalizing before fuel with
  | nil => cases fuel <;> rfl
  | cons cl rest ih =>
    obtain ⟨fuel, rfl⟩ := Nat.exists_eq_add_one_of_ne_zero (show fuel ≠ 0 by simp at hfuel; omega)
    rw [head?_cons, Option.map_some, filterLoop, filterRound_granted hlist hids (h cl (by simp))]
    have hnext : st.corpuslist = (before ++ [cl]) ++ rest := by simp [hlist]
    exact ih fuel (by simpa using hfuel) hnext fun e he => h e (by simp [he])

/-- However many rounds the loop is given. -/
theorem filterLoop_dropped (hids : (st.corpuslist.map CorpusEntry.id).Nodup) (fuel : ℕ)
    (hlist : st.corpuslist = before ++ rest) (h : ∃ e ∈ rest, granted e.name = false) :
    filterLoop granted fuel st (rest.head?.map CorpusEntry.id) = none := by
  induction rest generalizing before fuel with
  | nil => simp at h
  | cons cl rest ih =>
    cases fuel with
    | zero => rfl
    | succ fuel =>
      rw [head?_cons, Option.map_some, filterLoop]
      cases hcl : granted cl.name with
      | false => rw [filterRound_dropped hcl (get?_of_split hlist hids)]; rfl
      | true =>
        rw [filterRound_granted hlist hids hcl]
        have hnext : st.corpuslist = (before ++ [cl]) ++ rest := by simp [hlist]
        exact ih fuel hnext (by simpa [hcl] using h)

/-- The loop stays on the list only if it drops nothing. -/
theorem loginFilter_eq_some_iff (hids : (st.corpuslist.map CorpusEntry.id).Nodup) (st' : QueryStore α) :
    st.loginFilter granted = some st' ↔ (∀ e ∈ st.corpuslist, granted e.name) ∧ st' = st := by
  have hall : st.corpuslist = [] ++ st.corpuslist := rfl
  by_cases h : ∀ e ∈ st.corpuslist, granted e.name
  · have hloop : st.loginFilter granted = some st := filterLoop_granted hids _ le_rfl hall h
    rw [hloop, Option.some.injEq]
    exact ⟨fun heq => ⟨h, heq.symm⟩, fun heq => heq.2.symm⟩
  · have hloop : st.loginFilter granted = none := filterLoop_dropped hids _ hall (by simpa using h)
    rw [hloop]
    exact ⟨fun heq => absurd heq (by simp), fun heq => absurd heq.1 h⟩

end QueryStore

theorem filteredAsConfigured_iff {α : Type} {cmds : List UserDecl} (hgrants : GrantsAsConfigured cmds) (u : UserName)
    (st : QueryStore α) (hids : (st.corpuslist.map CorpusEntry.id).Nodup) :
    FilteredAsConfigured cmds u st ↔
      ∀ cl ∈ st.corpuslist, Configured cmds u cl.name ∧ Configured cmds u cl.motherCorpus := by
  obtain ⟨users, husers, hgrant⟩ := hgrants
  refine ⟨fun ⟨users', st', husers', hloop, hlist⟩ cl hcl => ?_, fun h => ?_⟩
  · obtain rfl := Option.some.inj (husers.symm.trans husers')
    obtain ⟨hall, rfl⟩ := (QueryStore.loginFilter_eq_some_iff hids st').mp hloop
    refine ⟨(hgrant u cl.name).mp (hall cl hcl), ?_⟩
    simpa using filter_eq_self.mp hlist.symm cl hcl
  · refine ⟨users, st, husers, ?_, ?_⟩
    · exact (QueryStore.loginFilter_eq_some_iff hids st).mpr ⟨fun cl hcl => (hgrant u cl.name).mpr (h cl hcl).1, rfl⟩
    · exact (filter_eq_self.mpr fun cl hcl => by simpa using (h cl hcl).2).symm

/-- The server grants what was configured, and the loop at login leaves just that, if and only if
no declaration has an empty list of grants, no grants of a repeated declaration are new to the
user that they are given to, and there is nothing to drop. -/
theorem access_as_configured_iff {α : Type} (cmds : List UserDecl) (u : UserName) (st : QueryStore α)
    (hids : (st.corpuslist.map CorpusEntry.id).Nodup) :
    (GrantsAsConfigured cmds ∧ FilteredAsConfigured cmds u st) ↔
      (GrantsInPlace cmds ∧ ∀ cl ∈ st.corpuslist, Configured cmds u cl.name ∧ Configured cmds u cl.motherCorpus) := by
  have hplace : GrantsAsConfigured cmds ↔ GrantsInPlace cmds := by
    rw [grantsAsConfigured_iff, grantsInPlace_iff]
  refine ⟨fun ⟨hg, hf⟩ => ?_, fun ⟨hg, hf⟩ => ?_⟩
  · exact ⟨hplace.mp hg, (filteredAsConfigured_iff hg u st hids).mp hf⟩
  · have hgrants := hplace.mpr hg
    exact ⟨hgrants, (filteredAsConfigured_iff hgrants u st hids).mpr hf⟩

/-- `user carol "pw" (DEMO);` -/
def oneGrant : List UserDecl := [⟨"carol".toList, "pw".toList, some ["DEMO".toList]⟩]

/-- `user alice "pw" (SECRET); user bob "pw"; user alice "pw" (DEMO);` -/
def repeatedUser : List UserDecl :=
  [⟨"alice".toList, "pw".toList, some ["SECRET".toList]⟩, ⟨"bob".toList, "pw".toList, none⟩,
    ⟨"alice".toList, "pw".toList, some ["DEMO".toList]⟩]

def demoCorpus : CorpusEntry Unit := ⟨0, .system, "DEMO".toList, "DEMO".toList, [], ()⟩

/-- The corpus alone, and with a query result on it. -/
def demoStore : QueryStore Unit := { corpuslist := [demoCorpus], nextId := 1 }

def resultStore : QueryStore Unit :=
  { corpuslist := [⟨1, .sub, "Last".toList, "DEMO".toList, [], ()⟩, demoCorpus], nextId := 2 }

theorem access_as_configured_demo :
    GrantsAsConfigured oneGrant ∧ FilteredAsConfigured oneGrant "carol".toList demoStore := by
  refine (access_as_configured_iff oneGrant "carol".toList demoStore (by decide)).mpr ⟨?_, by decide⟩
  intro before d after heq
  rcases before with _ | ⟨b, before⟩
  · obtain rfl := (List.cons.inj heq).1
    simp [GrantsFit]
  · simp [oneGrant] at heq

/-- Bob, who has no list of grants, gets the one that was written for alice; and carol's login
drops the query result on her corpus, whereupon the loop is off the list. -/
theorem access_not_as_configured :
    ¬ GrantsAsConfigured repeatedUser ∧ ¬ FilteredAsConfigured oneGrant "carol".toList resultStore := by
  refine ⟨fun ⟨users, husers, h⟩ => ?_, fun ⟨users, st', husers, hloop, _⟩ => ?_⟩
  · have hbob : Configured repeatedUser "bob".toList "SECRET".toList := by decide
    have hdenied : (authorizedUsers repeatedUser).map (checkGrant · "bob".toList "SECRET".toList) = some false := by decide
    rw [husers, Option.map_some, (h _ _).mpr hbob] at hdenied
    exact absurd hdenied (by decide)
  · have hnone : (authorizedUsers oneGrant).map (fun users => (resultStore.loginFilter
        (checkGrant users "carol".toList)).isSome) = some false := by decide
    rw [husers, Option.map_some, hloop] at hnone
    simp at hnone

end CWB
