import AstralOS.Fs.Inode

/-!
# Users and the login session

The model of `auth/users.rs` and `auth/session.rs`: the accounts with their password hashes, the login that looks an
account up, and the session that holds the user who is logged in.
-/

namespace AstralOS.Auth

/-! ### Passwords -/

section

variable (hash : Vector Byte 32)

def modifyByte (i : Nat) (f : Byte → Byte) : Vector Byte 32 :=
  hash.set (i % 32) (f (hash.get (Fin.ofNat 32 i))) (Nat.mod_lt i (by decide))

def absorb (i : Nat) (byte : Byte) : Vector Byte 32 :=
  let hash := modifyByte hash i fun b => b ^^^ byte
  let hash := modifyByte hash (i % 32 + 7) fun b => b + byte
  modifyByte hash (i % 32 + 13) fun b => b.rotateLeft 3

def mix : Vector Byte 32 :=
  (List.range 32).foldl
    (fun hash i => modifyByte hash i fun b => b + (hash.get (Fin.ofNat 32 (i + 1))).rotateLeft 5) hash

end

def hashPassword (password : String) : Vector Byte 32 :=
  let hash := (Fs.strBytes password).zipIdx.foldl (fun hash (byte, i) => absorb hash i byte) (Vector.replicate 32 0)
  (List.range 64).foldl (fun hash _ => mix hash) hash

/-! ### Accounts -/

structure User where
  uid : BitVec 32
  username : String
  passwordHash : Vector Byte 32
  groups : List (BitVec 32)
  homeDir : String
  deriving DecidableEq

def User.new (uid : BitVec 32) (username password : String) : User :=
  { uid, username, passwordHash := hashPassword password, groups := [],
    homeDir := if uid = 0 then "/root" else "/home/" ++ username }

def User.isRoot (u : User) : Bool := u.uid == 0

def User.verifyPassword (u : User) (password : String) : Bool := u.passwordHash == hashPassword password

structure UserDatabase where
  users : List User

namespace UserDatabase

def init : UserDatabase :=
  ⟨[{ User.new 0 "root" "astral" with groups := [0] }, { User.new 1000 "user" "password" with groups := [1000] }]⟩

def authenticate (db : UserDatabase) (username password : String) : Option User :=
  db.users.find? fun u => u.username == username && u.verifyPassword password

end UserDatabase

/-! ### The session -/

structure Session where
  user : Option User
  loggedIn : Bool

namespace Session

def new : Session := ⟨none, false⟩

def login (_ : Session) (user : User) : Session := ⟨some user, true⟩

def logout (_ : Session) : Session := ⟨none, false⟩

def isRoot (s : Session) : Bool := (s.user.map User.isRoot).getD false

end Session

end AstralOS.Auth
