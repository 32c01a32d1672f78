import Sysopy.ProdCons.Progress
import Sysopy.ProdCons.Startup
import Sysopy.Philosophers.Waking
import Sysopy.Airport.Capacity
import Sysopy.ReadersWriters.Deadlock
import Sysopy.ReadersWriters.Startup
import Sysopy.Datagram.Registration
import Sysopy.PrimeQueue.SysVTurns
import Sysopy.PrimeQueue.PosixLoss
import Sysopy.PrimeQueue.PosixDrain
import Sysopy.PrimeQueue.PosixDeparture
import Sysopy.PrimeQueue.PosixNames
import Sysopy.PrimeQueue.Departure
import Sysopy.Signals.HandshakeHang
import Sysopy.Signals.BurstCounts
import Sysopy.Chat.Dropped
import Sysopy.Chat.Stream
import Sysopy.AddressBook.WellFormed
import Sysopy.AddressBook.Ends
import Sysopy.AddressBook.Leaks
import Sysopy.WordSearch.Wersja1Race
import Sysopy.WordSearch.Wersja1Deadlock
import Sysopy.WordSearch.Wersja2
import Sysopy.WordSearch.Wersja3
import Sysopy.WordSearch.Positions
import Sysopy.FindDir.SameFiles
import Sysopy.FindDir.Paths
import Sysopy.Repeat.Wave
import Sysopy.Repeat.Reverse
import Sysopy.FileSort.Order
import Sysopy.FCounter.Total
import Sysopy.PrimeQueue.Report
import Sysopy.PrimeQueue.Lines
import Sysopy.PrimeQueue.Indices
import Sysopy.Conc.Pipe
import Sysopy.Fifo.Model
import Sysopy.ProdCons.Interrupted
import Sysopy.Fifo.Copy
import Sysopy.Conc.Offspring
import Sysopy.FCounter.FailingExec
import Sysopy.FCounter.CountedOnce
import Sysopy.FCounter.CountedTwice
import Sysopy.FileLocks.Model
import Sysopy.WordSearch.ReadLoop
import Sysopy.FileLocks.Listing
import Sysopy.AddressBook.Book
import Sysopy.Airport.Moving
import Sysopy.Chat.Network
import Sysopy.Children.Report
import Sysopy.FileLocks.Discipline
import Sysopy.FileSort.Generate
import Sysopy.Philosophers.Ending
import Sysopy.Philosophers.Fed
import Sysopy.Popen.Copy
import Sysopy.PrimeQueue.Printed
import Sysopy.PrimeQueue.Progress
import Sysopy.ProdCons.Served
import Sysopy.ThreadSignals.Report
import Sysopy.WordSearch.Versions
import Sysopy.Conc.Filter
import Sysopy.Pipeline.Model
import Sysopy.Pipeline.Output
