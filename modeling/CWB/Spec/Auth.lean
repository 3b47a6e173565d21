import CWB.Spec.QueryStore

/-! The user list of `CQi/auth.c`, filled by the `user` commands of the init file, and the loop
in `main` of `CQi/cqpserver.c` that drops corpora from the list at login. -/

namespace CWB

abbrev UserName := List Char

/-- The grants stand in the order of the linked list, the last one first. -/
structure UserEntry where
  name : UserName
  passwd : List Char
  grants : List CorpusName := []
deriving Repr, DecidableEq

def findUser (username : UserName) (users : List UserEntry) : Option UserEntry := users.find? (·.name = username)

def addUserToList (user : UserName) (passwd : List Char) (users : List UserEntry) : List UserEntry :=
  match findUser user users with
  | some _ => users
  | none => { name := user, passwd } :: users

/-- `add_grant_to_last_user`; `none` if its assertion fails. -/
def addGrantToLastUser (corpus : CorpusName) : List UserEntry → Option (List UserEntry)
  | [] => none
  | user :: users => some ({ user with grants := corpus :: user.grants } :: users)

def checkGrant (users : List UserEntry) (username : UserName) (corpus : CorpusName) : Bool :=
  match findUser username users with
  | none => false
  | some user => if user.grants = [] then true else user.grants.any (· = corpus)

/-- The command `user name "passwd" (corpora)`; the list may be missing. -/
structure UserDecl where
  name : UserName
  passwd : List Char := []
  grants : Option (List CorpusName) := none
deriving Repr, DecidableEq

/-- `AuthorizeCmd`: the user is added before the grants are read. -/
def authorizeCmd (users : List UserEntry) (d : UserDecl) : Option (List UserEntry) :=
  (d.grants.getD []).foldlM (fun users corpus => addGrantToLastUser corpus users) (addUserToList d.name d.passwd users)

/-- `authorized_users` after the commands. -/
def authorizedUsers (cmds : List UserDecl) : Option (List UserEntry) := cmds.foldlM authorizeCmd []

namespace QueryStore

variable {α : Type} (granted : CorpusName → Bool)

/-- `NextCorpusFromList`, that is `cl->next`; `none` if the entry is not in the list any more:
it has been freed, and what is read there is undefined. -/
def nextCorpusFromList (st : QueryStore α) (cl : ℕ) : Option (Option ℕ) :=
  match st.corpuslist.dropWhile (·.id ≠ cl) with
  | [] => none
  | _ :: rest => some (rest.head?.map CorpusEntry.id)

/-- One round of the loop: the list, and the entry to look at next. -/
def filterRound (st : QueryStore α) (p : ℕ) : Option (QueryStore α × Option ℕ) := do
  let cl ← st.get? p
  let st := if granted cl.name then st else st.dropcorpus p
  let next ← st.nextCorpusFromList p
  some (st, next)

/-- The loop, for at most `fuel` rounds. -/
def filterLoop : ℕ → QueryStore α → Option ℕ → Option (QueryStore α)
  | _, st, none => some st
  | 0, _, some _ => none
  | fuel + 1, st, some p => do
    let (st, next) ← filterRound granted st p
    filterLoop fuel st next

/-- From the first entry on, with a round for each entry. -/
def loginFilter (st : QueryStore α) : Option (QueryStore α) :=
  filterLoop granted st.corpuslist.length st (st.corpuslist.head?.map CorpusEntry.id)

end QueryStore

end CWB
