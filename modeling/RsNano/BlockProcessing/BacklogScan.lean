import RsNano.Ledger.Store
import RsNano.Lib.Range

/-!
# The backlog scan

The accounts are read in batches, each from its own snapshot of the ledger, from a cursor on that is
moved behind the last account of the batch. A look-ahead tells whether the batch was the last one.
Behind the greatest account number the cursor stays where it is, but then there is nothing to be
looked at.
-/

namespace RsNano

open List

structure UnconfirmedInfo where
  account : Account
  accountInfo : AccountInfo
  confInfo : ConfirmationHeightInfo

structure BacklogScanResult where
  fullyConfirmed : List Account
  unconfirmed : List UnconfirmedInfo
  next : Account
  done : Bool

namespace BacklogScanResult

def len (r : BacklogScanResult) : ℕ := r.fullyConfirmed.length + r.unconfirmed.length

/-- The accounts that the observers are told about. -/
def accounts (r : BacklogScanResult) : List Account :=
  r.fullyConfirmed ++ r.unconfirmed.map UnconfirmedInfo.account

end BacklogScanResult

namespace BacklogScan

variable {l : Ledger} {batchSize : ℕ} {next : Account} {r : BacklogScanResult}
  {it : List (Account × AccountInfo)}

end BacklogScan

end RsNano
