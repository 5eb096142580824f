import ReminderSuite.Basic
import ReminderSuite.Delimited

/-! The client library of the Data Provider: one command and one read of its
response over a connection of its own. -/
namespace ReminderSuite
open Delimited
variable {ν : Type}

/-- The socket operations of a client over the state of everything behind them;
`false` and `none` stand for an error code, or for a resolver that throws. -/
structure Network (ν : Type) where
  resolve : ν → Bool × ν
  connect : ν → Bool × ν
  send : Bytes → ν → Bool × ν
  readSome : Nat → ν → Option Bytes × ν
  close : ν → ν

structure DataClient (ν : Type) where
  create : ν → Bool × ν
  executeCmd : Bytes → List Bytes → ν → (Bool × List Bytes) × ν

def streamBuf : Nat := 8192

def executeCmd (net : Network ν) (cmd : Bytes) (result : List Bytes) (world : ν) :
    (Bool × List Bytes) × ν :=
  match net.connect world with
  | (false, world) => ((false, result), world)
  | (true, world) =>
    match net.send cmd world with
    | (false, world) => ((false, result), net.close world)
    | (true, world) =>
      match net.readSome streamBuf world with
      | (none, world) => ((false, result), net.close world)
      | (some rb, world) => ((true, result ++ tokens lf rb), net.close world)

def dataClient (net : Network ν) : DataClient ν := ⟨net.resolve, executeCmd net⟩

def DataClient.recorded (client : DataClient ν) : DataClient (ν × List Bytes) where
  create w :=
    let (done, world) := client.create w.1
    (done, world, w.2)
  executeCmd cmd result w :=
    let (reply, world) := client.executeCmd cmd result w.1
    (reply, world, w.2 ++ [cmd])

structure Network.Reachable (net : Network ν) : Prop where
  resolve : ∀ w, (net.resolve w).1 = true
  connect : ∀ w, (net.connect w).1 = true
  send : ∀ cmd w, (net.send cmd w).1 = true
  readSome : ∀ n w, (net.readSome n w).1.isSome = true

theorem executeCmd_of_delivered {net : Network ν} {cmd rb : Bytes} {w w1 w2 w3 : ν}
    (hconnect : net.connect w = (true, w1)) (hsend : net.send cmd w1 = (true, w2))
    (hread : net.readSome streamBuf w2 = (some rb, w3)) (result : List Bytes) :
    executeCmd net cmd result w = ((true, result ++ tokens lf rb), net.close w3) := by
  simp [executeCmd, hconnect, hsend, hread]

theorem executeCmd_of_reachable {net : Network ν} (h : net.Reachable) (cmd : Bytes)
    (result : List Bytes) (w : ν) :
    ∃ rb w', executeCmd net cmd result w = ((true, result ++ tokens lf rb), w') := by
  rcases h1 : net.connect w with ⟨b1, w1⟩
  obtain rfl : b1 = true := by simpa [h1] using h.connect w
  rcases h2 : net.send cmd w1 with ⟨b2, w2⟩
  obtain rfl : b2 = true := by simpa [h2] using h.send cmd w1
  rcases h3 : net.readSome streamBuf w2 with ⟨r, w3⟩
  obtain ⟨rb, rfl⟩ : ∃ rb, r = some rb :=
    Option.isSome_iff_exists.mp (by simpa [h3] using h.readSome streamBuf w2)
  exact ⟨rb, _, executeCmd_of_delivered h1 h2 h3 result⟩

end ReminderSuite
